import SlpServer.Lib.Drain
import SlpServer.Slp.Lifecycle

/-!
# The server comes to rest

Datagrams, time and new plugins come from outside; everything else the server
does by itself.  `load` is the work it has: what an event or a datagram makes
for the tasks behind it, a copy to each client at most.  Every step of its own
takes some of it (`load_lt`), whatever the plugins do, so that with no input it
comes to an end (`run_length_le`).

Where it ends nothing is left in a channel or at work, and each peer task waits
for its client (`rest_iff`).
-/

namespace SlpServer

open Rust PeerTask

/-! ### Sums over the tasks -/

theorem sum_map_set {α : Type} (f : α → Nat) {xs : List α} {i : Nat} {x : α} (h : xs[i]? = some x)
    (y : α) : ((xs.set i y).map f).sum + f x = (xs.map f).sum + f y := by
  induction xs generalizing i with
  | nil => cases h
  | cons z xs ih =>
    cases i with
    | zero =>
      cases h
      simp only [List.set_cons_zero, List.map_cons, List.sum_cons]
      omega
    | succ i =>
      have hrest := ih h
      simp only [List.set_cons_succ, List.map_cons, List.sum_cons]
      omega

namespace Server

/-- The labels of the server's own steps. -/
def Label.Own : Label → Prop
  | .tick | .configure | .receive => False
  | .filter | .decide | .task _ | .take | .job => True

instance : DecidablePred Label.Own
  | .tick | .configure | .receive => instDecidableFalse
  | .filter | .decide | .task _ | .take | .job => instDecidableTrue

variable {P : Type}

/-! ### The work there is -/

/-- How many clients a frame goes to at most: the peers, and one more if there is
a datagram that may bring it.  A route leads to one client, known or not. -/
def fanout (s : Server P) : Nat :=
  s.manager.cache.entries.length + s.recv.held.toList.length + 1

/-- The steps of an event at work, with `n` clients at most to send to. -/
def jobWork (n : Nat) : JobPhase → Nat
  | .started => n + 3
  | .routed addrs => addrs.length + 2
  | .sending addrs => addrs.length + 1

/-- The steps of a task, and of the events it sends. -/
def phaseWork (n : Nat) : Phase → Nat
  | .done => 0
  | .closing => n + 5
  | .leaving => n + 6
  | .waiting _ => n + 7
  | .top => n + 8
  | .sending _ _ => 2 * n + 13
  | .handling _ => 2 * n + 14

def taskWork (n : Nat) (t : PeerTask) : Nat := phaseWork n t.phase + (n + 8) * t.rx.queue.length

/-- The steps of the receive loop, and of the task that gets the datagram. -/
def recvWork (n : Nat) : RecvPhase → Nat
  | .idle | .down => 0
  | .deciding _ => 2 * n + 17
  | .filtering _ => 2 * n + 18

def load (n : Nat) (s : Server P) : Nat :=
  recvWork n s.recv + (s.tasks.map (taskWork n)).sum + (n + 4) * s.events.queue.length +
    (s.jobs.map fun j => jobWork n j.phase).sum

/-! ### What a step takes of it -/

section
variable {now : Instant} {orphan closed : Bool} {i : PeerId} {t t' : PeerTask} {e : Option Posted}

/-- A step of a task leaves it with less to do, the event it sends included. -/
theorem taskWork_lt (n : Nat) (h : t.Step now orphan closed i e t') :
    taskWork n t' + (n + 4) * e.toList.length < taskWork n t := by
  cases h with
  | arm h | recvNone h | timeout h | send h | sendFails h | sendClose h | sendCloseFails h =>
    simp [taskWork, phaseWork, h]
    try omega
  | recv h hrx =>
    simp only [taskWork, phaseWork, h, (Chan.recv_eq_some hrx).1, List.length_cons, Nat.mul_succ,
      Option.toList_none, List.length_nil, Nat.mul_zero]
    omega
  | @handle d r h hr =>
    match r with
    | .ok (some out) | .ok none | .error _ =>
      simp [taskWork, phaseWork, phaseAfter, h]
      try omega
  | dropRx h =>
    simp [taskWork, phaseWork, h]
    omega

end

theorem length_getDestSockaddr_le (m : InnerPeerManager) (src : SocketAddr) (out : OutAddr) :
    (m.getDestSockaddr src out).1.length ≤ m.cache.entries.length + 1 := by
  unfold InnerPeerManager.getDestSockaddr
  dsimp only
  split
  · simp
  · rw [List.length_map]
    have hidle := List.length_filter_le (fun e => !m.ignoreIdle || e.2.state.isConnected)
      m.cache.entries
    have hsrc := List.length_filter_le (fun e => decide (src ≠ e.1))
      (m.cache.entries.filter fun e => !m.ignoreIdle || e.2.state.isConnected)
    omega

theorem length_cache_remove_le (m : InnerPeerManager) (a : SocketAddr) :
    (m.remove a).cache.entries.length ≤ m.cache.entries.length :=
  (List.kerase_sublist a m.cache.entries).length_le

theorem length_cache_peerMut_le (m : InnerPeerManager) (a : SocketAddr) (new : Peer)
    (func : Peer → Peer) :
    (m.peerMut a new func).cache.entries.length ≤ m.cache.entries.length + 1 :=
  Nat.succ_le_succ (List.kerase_sublist a m.cache.entries).length_le

/-- No step of its own gives the server more clients than it may have. -/
theorem fanout_le {plugin : Plugin P} {s s' : Server P} {l : Label} (hown : l.Own)
    (h : Step plugin s l s') : fanout s' ≤ fanout s := by
  cases h with
  | tick | configure | receive | recvFails => cases hown
  | filter h | filterPanics _ h | discard h | pong h => simp [fanout, h, RecvPhase.held]
  | @dispatch d frame peer peer' tasks t h =>
    have hlen := length_cache_peerMut_le s.manager d.packet.addr peer fun _ => peer'
    simp only [fanout, h, RecvPhase.held, Option.toList_some, Option.toList_none, List.length_nil,
      List.length_singleton]
    omega
  | @close jobs jobs' e addr =>
    have hlen := length_cache_remove_le s.manager addr
    simp only [fanout]
    omega
  | route => simp [fanout]
  | task | taskSends | take | sendLan | drop | crash | sendTo | finish => exact Nat.le_refl _

theorem sum_jobWork {n : Nat} {jobs jobs' : List Job} {j : Job} :
    ((jobs ++ j :: jobs').map fun j => jobWork n j.phase).sum =
      jobWork n j.phase + ((jobs ++ jobs').map fun j => jobWork n j.phase).sum := by
  simp only [List.map_append, List.map_cons, List.sum_append, List.sum_cons]
  omega

theorem taskWork_trySend_le (n : Nat) (t : PeerTask) (d : Stamped) :
    taskWork n (trySend t d).1 ≤ taskWork n t + (n + 8) := by
  unfold trySend
  split
  · rename_i rx hrx
    simp only [taskWork, (Chan.trySend_eq_ok hrx).2.2, List.length_append, List.length_singleton,
      Nat.mul_succ]
    omega
  · exact Nat.le_add_right _ _

theorem sum_entry_le (n : Nat) {s : Server P} {addr : SocketAddr} {peer : Peer}
    {tasks : List PeerTask} (h : s.entry addr = (peer, tasks)) :
    (tasks.map (taskWork n)).sum ≤ (s.tasks.map (taskWork n)).sum + (n + 8) := by
  obtain ⟨_, rfl⟩ | ⟨_, _, rfl⟩ := entry_cases h
  · exact Nat.le_add_right _ _
  · simp [taskWork, spawn, phaseWork]

/-- **Every step of its own takes some of the work**, with `n` clients at most. -/
theorem load_lt {plugin : Plugin P} {s s' : Server P} {l : Label} {n : Nat} (hn : fanout s ≤ n)
    (hown : l.Own) (h : Step plugin s l s') : load n s' < load n s := by
  cases h with
  | tick | configure | receive | recvFails => cases hown
  | filter h | filterPanics _ h | discard h | pong h =>
    simp only [load, h, recvWork]
    omega
  | @dispatch d frame peer peer' tasks t h hparse hping hentry hon ht =>
    have hset := sum_map_set (taskWork n) ht (trySend t d).1
    have hsend := taskWork_trySend_le n t d
    have htasks := sum_entry_le n hentry
    simp only [load, h, recvWork]
    omega
  | @task _ t t' ht hstep =>
    have hset := sum_map_set (taskWork n) ht t'
    have hwork := taskWork_lt n hstep
    simp only [Option.toList_none, List.length_nil, Nat.mul_zero] at hwork
    simp only [load]
    omega
  | @taskSends _ t t' e events ht hstep hsend =>
    have hset := sum_map_set (taskWork n) ht t'
    have hwork := taskWork_lt n hstep
    simp only [Option.toList_some, List.length_singleton] at hwork
    simp only [load, (Chan.trySend_eq_ok hsend).2.2, List.length_append, List.length_singleton,
      Nat.mul_succ]
    omega
  | take hrecv hjobs =>
    simp only [load, (Chan.recv_eq_some hrecv).1, List.length_cons, List.map_append, List.map_cons,
      List.map_nil, List.sum_append, List.sum_cons, List.sum_nil, jobWork, Nat.mul_succ]
    omega
  | close hjobs he | drop hjobs he | finish hjobs he =>
    simp only [load, hjobs, sum_jobWork]
    simp only [jobWork]
    omega
  | @route jobs jobs' e src out addrs hjobs he haddrs =>
    have hlen := length_getDestSockaddr_le s.manager src out.addr
    rw [← haddrs.length_eq] at hlen
    have hn' : s.manager.cache.entries.length + 1 ≤ n := by
      unfold fanout at hn
      omega
    simp only [load, hjobs, sum_jobWork]
    simp only [jobWork]
    omega
  | sendLan hjobs he =>
    simp only [load, hjobs, sum_jobWork]
    simp only [jobWork]
    omega
  | crash plugins hjobs he =>
    simp only [load, hjobs, sum_jobWork, Chan.queue_close, List.length_nil, Nat.mul_zero,
      List.map_nil, List.sum_nil]
    simp only [jobWork]
    omega
  | sendTo hjobs he =>
    simp only [load, hjobs, sum_jobWork]
    simp only [jobWork, List.length_cons]
    omega

theorem load_step {plugin : Plugin P} {s s' : Server P} {l : Label} {n : Nat} (hn : fanout s ≤ n)
    (hown : l.Own) (h : Step plugin s l s') : fanout s' ≤ n ∧ load n s' < load n s :=
  ⟨Nat.le_trans (fanout_le hown h) hn, load_lt hn hown h⟩

/-- The server left alone comes to an end.  From any state, a run of steps
of its own is no longer than the work there is, whatever the plugins do. -/
theorem run_length_le {plugin : Plugin P} {s : Server P} {r : List (Label × Server P)}
    (hr : (lts plugin).Run s r) (hown : Lts.Labelled Label.Own r) :
    r.length + load (fanout s) (Lts.last s r) ≤ load (fanout s) s := by
  refine Lts.length_add_le (q := fun s' => fanout s' ≤ fanout s) ?_ (Nat.le_refl _) hr hown
  exact fun _ _ _ hle hown h => load_step hle hown h

/-! ### Rest -/

/-- A task that has ended, or that waits for its client. -/
def Parked (s : Server P) (i : PeerId) (t : PeerTask) : Prop :=
  t.rx.queue = [] ∧ (t.phase = .done ∨
    ∃ deadline, t.phase = .waiting deadline ∧ s.now < deadline ∧ s.orphan i = false)

/-- Nothing is on its way. -/
structure AtRest (s : Server P) : Prop where
  recv : s.recv = .idle ∨ s.recv = .down
  events : s.events.queue = []
  jobs : s.jobs = []
  tasks : ∀ i t, s.tasks[i]? = some t → Parked s i t

/-- What keeps a step from getting stuck: only frames for the LAN are routed, and
a task that has dropped its receiver gets nothing more. -/
structure Sound (s : Server P) : Prop where
  jobs : ∀ j ∈ s.jobs, j.phase ≠ .started → ∃ src out, j.posted.event = .sendLAN src out
  tasks : ∀ t ∈ s.tasks, t.phase = .closing ∨ t.phase = .done →
    t.rx.queue = [] ∧ t.rx.closed = true

theorem Sound.jobs_of {s : Server P} (h : Sound s) {jobs jobs' : List Job} {j : Job}
    (hjobs : s.jobs = jobs ++ j :: jobs') (more : List Job)
    (hmore : ∀ j ∈ more, ∃ src out, j.posted.event = .sendLAN src out) :
    ∀ j ∈ jobs ++ (more ++ jobs'), j.phase ≠ .started →
      ∃ src out, j.posted.event = .sendLAN src out := by
  intro x hx hphase
  rcases mem_replace hjobs more hx with hx | hx
  · exact hmore x hx
  · exact h.jobs x hx hphase

theorem shut_step {now : Instant} {orphan closed : Bool} {i : PeerId} {t t' : PeerTask}
    {e : Option Posted} (h : t.Step now orphan closed i e t')
    (ht : t.phase = .closing ∨ t.phase = .done → t.rx.queue = [] ∧ t.rx.closed = true) :
    t'.phase = .closing ∨ t'.phase = .done → t'.rx.queue = [] ∧ t'.rx.closed = true := by
  intro hp
  cases h with
  | dropRx h => exact ⟨rfl, rfl⟩
  | sendClose h | sendCloseFails h => exact ht (.inl h)
  | @handle d r h hr =>
    match r with
    | .ok (some out) | .ok none | .error _ => simp [phaseAfter] at hp
  | arm h | recv h | recvNone h | timeout h | send h | sendFails h => simp at hp

theorem shut_trySend {t : PeerTask} (d : Stamped)
    (ht : t.phase = .closing ∨ t.phase = .done → t.rx.queue = [] ∧ t.rx.closed = true) :
    (trySend t d).1.phase = .closing ∨ (trySend t d).1.phase = .done →
      (trySend t d).1.rx.queue = [] ∧ (trySend t d).1.rx.closed = true := by
  rw [phase_trySend]
  intro hp
  obtain ⟨_, hopen, _⟩ | ⟨_, _, hsame⟩ | ⟨_, _, hsame⟩ := trySend_cases t d
  · rw [(ht hp).2] at hopen
    cases hopen
  · rw [hsame]
    exact ht hp
  · rw [hsame]
    exact ht hp

theorem Sound.step {plugin : Plugin P} {s s' : Server P} {l : Label} (hs : Sound s)
    (h : Step plugin s l s') : Sound s' := by
  cases h with
  | @dispatch d frame peer peer' tasks t h hparse hping hentry hon ht =>
    refine ⟨hs.jobs, ?_⟩
    intro u hu
    have htasks : ∀ v ∈ tasks, v.phase = .closing ∨ v.phase = .done →
        v.rx.queue = [] ∧ v.rx.closed = true := by
      obtain ⟨_, rfl⟩ | ⟨_, _, rfl⟩ := entry_cases hentry
      · exact hs.tasks
      · intro v hv
        rcases List.mem_append.mp hv with hv | hv
        · exact hs.tasks v hv
        · rw [List.mem_singleton.mp hv]
          simp [spawn]
    rcases List.mem_or_eq_of_mem_set hu with hu | rfl
    · exact htasks u hu
    · exact shut_trySend d (htasks t (List.mem_of_getElem? ht))
  | @task _ t t' ht hstep | @taskSends _ t t' _ _ ht hstep =>
    refine ⟨hs.jobs, ?_⟩
    intro u hu
    rcases List.mem_or_eq_of_mem_set hu with hu | rfl
    · exact hs.tasks u hu
    · exact shut_step hstep (hs.tasks t (List.mem_of_getElem? ht))
  | take hrecv hjobs =>
    refine ⟨?_, hs.tasks⟩
    intro j hj hphase
    rcases List.mem_append.mp hj with hj | hj
    · exact hs.jobs j hj hphase
    · rw [List.mem_singleton.mp hj] at hphase
      exact absurd rfl hphase
  | close hjobs he | drop hjobs he | finish hjobs he =>
    exact ⟨hs.jobs_of hjobs [] (fun _ hj => (nomatch hj)), hs.tasks⟩
  | @route _ _ e src out addrs hjobs he =>
    refine ⟨hs.jobs_of hjobs [⟨e, .routed addrs⟩] ?_, hs.tasks⟩
    intro j hj
    rw [List.mem_singleton.mp hj]
    exact ⟨src, out, he⟩
  | @sendLan _ _ e src out addrs _ _ hjobs he =>
    refine ⟨hs.jobs_of hjobs [⟨e, .sending addrs⟩] ?_, hs.tasks⟩
    intro j hj
    rw [List.mem_singleton.mp hj]
    exact ⟨src, out, he⟩
  | @sendTo _ _ e src out _ addrs hjobs he =>
    refine ⟨hs.jobs_of hjobs [⟨e, .sending addrs⟩] ?_, hs.tasks⟩
    intro j hj
    rw [List.mem_singleton.mp hj]
    exact ⟨src, out, he⟩
  | crash => exact ⟨fun _ hj => (nomatch hj), hs.tasks⟩
  | tick | configure | receive | recvFails | filter | filterPanics | discard | pong =>
    exact ⟨hs.jobs, hs.tasks⟩

theorem sound_of_reachable {plugin : Plugin P} {s : Server P} (h : (lts plugin).Reachable s) :
    Sound s := by
  refine Lts.invariant (p := Sound) ?_ (fun _ _ _ hs h => hs.step h) h
  rintro _ ⟨ignoreIdle, plugins, rfl⟩
  exact ⟨fun _ hj => (nomatch hj), fun _ ht => (nomatch ht)⟩

/-! ### Where there is work there is a step -/

theorem exists_filter (plugin : Plugin P) {s : Server P} {d : Stamped}
    (h : s.recv = .filtering d) : ∃ s', Step plugin s .filter s' := by
  cases hin : inPackets plugin d.packet s.plugins with
  | ok r => exact ⟨_, .filter h (List.Perm.refl _) hin⟩
  | error e => exact ⟨_, .filterPanics s.plugins h (List.Perm.refl _) hin⟩

theorem exists_decide (plugin : Plugin P) {s : Server P} (hf : Flow s) {d : Stamped}
    (h : s.recv = .deciding d) : ∃ s', Step plugin s .decide s' := by
  obtain ⟨r, hparse, _⟩ := ForwarderFrame.parse_total d.packet.data
  cases r with
  | error e => exact ⟨_, .discard h hparse⟩
  | ok frame =>
    by_cases hping : ∃ ping, frame = .ping ping
    · obtain ⟨ping, rfl⟩ := hping
      exact ⟨_, .pong h hparse ping.build_ok⟩
    · push Not at hping
      obtain ⟨peer, tasks, hentry⟩ : ∃ peer tasks, s.entry d.packet.addr = (peer, tasks) :=
        ⟨_, _, rfl⟩
      have hon : ∃ peer', peer.onPacket d.packet.data s.now = .ok (some peer') := by
        simp only [Peer.onPacket, hparse, ok_bind]
        split
        · exact ⟨_, rfl⟩
        · exact ⟨_, rfl⟩
      have ht : ∃ t, tasks[peer.sender]? = some t := by
        obtain ⟨hl, rfl⟩ | ⟨_, rfl, rfl⟩ := entry_cases hentry
        · obtain ⟨t, ht, _⟩ := hf.cache _ _ hl
          exact ⟨t, ht⟩
        · exact ⟨_, List.getElem?_concat_length⟩
      obtain ⟨peer', hon⟩ := hon
      obtain ⟨t, ht⟩ := ht
      exact ⟨_, .dispatch h hparse hping hentry hon ht⟩

theorem exists_job (plugin : Plugin P) {s : Server P} (hs : Sound s) {j : Job} {jobs : List Job}
    (h : s.jobs = j :: jobs) : ∃ s', Step plugin s .job s' := by
  obtain ⟨e, phase⟩ := j
  have hjobs : s.jobs = [] ++ ⟨e, phase⟩ :: jobs := h
  have hmem : ⟨e, phase⟩ ∈ s.jobs := by rw [h]; exact List.mem_cons_self ..
  have hsend := hs.jobs _ hmem
  cases phase with
  | started =>
    cases he : e.event with
    | close addr => exact ⟨_, .close hjobs he⟩
    | sendLAN src out => exact ⟨_, .route hjobs he (List.Perm.refl _)⟩
  | routed addrs =>
    obtain ⟨src, out, he⟩ := hsend nofun
    cases hout : outPackets plugin out.data addrs s.plugins with
    | error p => exact ⟨_, .crash s.plugins hjobs he (List.Perm.refl _) hout⟩
    | ok r =>
      obtain ⟨refused, plugins⟩ := r
      cases refused with
      | false => exact ⟨_, .sendLan hjobs he (List.Perm.refl _) hout⟩
      | true => exact ⟨_, .drop hjobs he (List.Perm.refl _) hout⟩
  | sending addrs =>
    obtain ⟨src, out, he⟩ := hsend nofun
    cases addrs with
    | nil => exact ⟨_, .finish hjobs he⟩
    | cons addr addrs => exact ⟨_, .sendTo hjobs he⟩

theorem exists_take (plugin : Plugin P) {s : Server P} (hjobs : s.jobs = [])
    (h : s.events.queue ≠ []) : ∃ s', Step plugin s .take s' := by
  cases hrecv : s.events.recv with
  | none => exact absurd (Chan.recv_eq_none.mp hrecv) h
  | some r => exact ⟨_, .take hrecv (by rw [hjobs]; exact Nat.succ_pos _)⟩

/-- A task that is not parked has a step, once the event channel has room. -/
theorem exists_task (plugin : Plugin P) {s : Server P} (hs : Sound s)
    (hroom : s.events.queue = []) {i : PeerId} {t : PeerTask} (ht : s.tasks[i]? = some t)
    (h : ¬ Parked s i t) : ∃ s', Step plugin s (.task i) s' := by
  have hsend : ∀ e, s.events.closed = false → ∃ events, s.events.trySend e = .ok events := by
    intro e hopen
    unfold Chan.trySend
    rw [dif_pos (by rw [hroom]; exact Nat.succ_pos _), hopen]
    exact ⟨_, rfl⟩
  have hclosed : s.events.closed = false ∨ s.events.closed = true := by
    cases s.events.closed <;> simp
  cases hp : t.phase with
  | top => exact ⟨_, .task ht (.arm hp)⟩
  | waiting deadline =>
    cases hrx : t.rx.recv with
    | some r => exact ⟨_, .task ht (.recv hp hrx)⟩
    | none =>
      by_cases horphan : s.orphan i = true
      · exact ⟨_, .task ht (.recvNone hp hrx horphan)⟩
      · by_cases hdeadline : deadline ≤ s.now
        · exact ⟨_, .task ht (.timeout hp hrx hdeadline)⟩
        · rw [Bool.not_eq_true] at horphan
          have hlt : s.now < deadline := Nat.lt_of_not_le hdeadline
          exact absurd ⟨Chan.recv_eq_none.mp hrx, .inr ⟨deadline, hp, hlt, horphan⟩⟩ h
  | handling d =>
    obtain ⟨r, hr, _⟩ := doPacket_total d.packet.data
    exact ⟨_, .task ht (.handle hp hr)⟩
  | sending d out =>
    rcases hclosed with hopen | hclosed
    · obtain ⟨events, he⟩ := hsend ⟨i, some d.stamp, .sendLAN t.addr out⟩ hopen
      exact ⟨_, .taskSends ht (.send hp) he⟩
    · exact ⟨_, .task ht (.sendFails hp hclosed)⟩
  | leaving => exact ⟨_, .task ht (.dropRx hp)⟩
  | closing =>
    rcases hclosed with hopen | hclosed
    · obtain ⟨events, he⟩ := hsend ⟨i, none, .close t.addr⟩ hopen
      exact ⟨_, .taskSends ht (.sendClose hp) he⟩
    · exact ⟨_, .task ht (.sendCloseFails hp hclosed)⟩
  | done =>
    have hshut := hs.tasks t (List.mem_of_getElem? ht) (.inr hp)
    exact absurd ⟨hshut.1, .inl hp⟩ h

theorem Parked.no_step {s : Server P} {i : PeerId} {t t' : PeerTask} {e : Option Posted}
    (h : Parked s i t) : ¬ t.Step s.now (s.orphan i) s.events.closed i e t' := by
  intro hturn
  obtain ⟨hqueue, hp⟩ := h
  cases hturn with
  | arm h | handle h | send h | sendFails h | dropRx h | sendClose h | sendCloseFails h =>
    rcases hp with hp | ⟨_, hp, _⟩ <;> rw [h] at hp <;> cases hp
  | recv h hrx =>
    rw [(Chan.recv_eq_some hrx).1] at hqueue
    cases hqueue
  | recvNone h hrx horphan =>
    rcases hp with hp | ⟨_, hp, _, ho⟩
    · rw [h] at hp
      cases hp
    · rw [horphan] at ho
      cases ho
  | timeout h hrx hdeadline =>
    rcases hp with hp | ⟨_, hp, hlt, _⟩
    · rw [h] at hp
      cases hp
    · rw [h] at hp
      cases hp
      exact absurd hdeadline (Nat.not_le.mpr hlt)

theorem AtRest.rest (plugin : Plugin P) {s : Server P} (h : AtRest s) :
    (lts plugin).Rest Label.Own s := by
  intro l s' hown hstep
  have hnojob : ∀ {jobs jobs' : List Job} {j : Job}, s.jobs ≠ jobs ++ j :: jobs' := by
    intro jobs jobs' j hj
    rw [h.jobs] at hj
    exact List.append_ne_nil_of_right_ne_nil jobs (List.cons_ne_nil _ _) hj.symm
  have hidle : s.recv.held = none := by
    rcases h.recv with hr | hr <;> rw [hr] <;> rfl
  cases hstep with
  | tick | configure | receive | recvFails => cases hown
  | filter hd | filterPanics _ hd | discard hd | pong hd | dispatch hd =>
    rw [hd] at hidle
    cases hidle
  | task ht hturn | taskSends ht hturn => exact (h.tasks _ _ ht).no_step hturn
  | take hrecv =>
    have hq := h.events
    rw [(Chan.recv_eq_some hrecv).1] at hq
    cases hq
  | close hjobs | route hjobs | sendLan hjobs | drop hjobs | crash _ hjobs | sendTo hjobs
  | finish hjobs => exact hnojob hjobs

/-- **Where the server comes to rest**: nowhere else than with the channels
empty, no event at work and each task ended or waiting for its client. -/
theorem rest_iff {plugin : Plugin P} {s : Server P} (h : (lts plugin).Reachable s) :
    (lts plugin).Rest Label.Own s ↔ AtRest s := by
  have hf := flow_of_reachable h
  have hs := sound_of_reachable h
  refine ⟨fun hrest => ?_, fun hrest => hrest.rest plugin⟩
  have hjobs : s.jobs = [] := by
    cases hj : s.jobs with
    | nil => rfl
    | cons j jobs =>
      obtain ⟨s', hstep⟩ := exists_job plugin hs hj
      exact absurd hstep (hrest .job s' trivial)
  have hevents : s.events.queue = [] := by
    by_contra hne
    obtain ⟨s', hstep⟩ := exists_take plugin hjobs hne
    exact hrest .take s' trivial hstep
  refine ⟨?_, hevents, hjobs, ?_⟩
  · cases hr : s.recv with
    | idle => exact .inl rfl
    | down => exact .inr rfl
    | filtering d =>
      obtain ⟨s', hstep⟩ := exists_filter plugin hr
      exact absurd hstep (hrest .filter s' trivial)
    | deciding d =>
      obtain ⟨s', hstep⟩ := exists_decide plugin hf hr
      exact absurd hstep (hrest .decide s' trivial)
  · intro i t ht
    by_contra hpark
    obtain ⟨s', hstep⟩ := exists_task plugin hs hevents ht hpark
    exact hrest (.task i) s' trivial hstep

/-- **The server settles.**  From any reachable state its own steps lead to rest:
some run of them does, no run of them is longer than the work there is, and one
that cannot go on has come to rest. -/
theorem settles {plugin : Plugin P} {s : Server P} (h : (lts plugin).Reachable s) :
    (∃ r, (lts plugin).Run s r ∧ Lts.Labelled Label.Own r ∧ AtRest (Lts.last s r)) ∧
    ∀ r, (lts plugin).Run s r → Lts.Labelled Label.Own r →
      r.length ≤ load (fanout s) s ∧
      ((lts plugin).Rest Label.Own (Lts.last s r) ↔ AtRest (Lts.last s r)) := by
  constructor
  · have hle : fanout s ≤ fanout s := Nat.le_refl _
    obtain ⟨r, hr, hown, hrest⟩ := Lts.exists_rest (T := lts plugin)
      (fun _ _ _ hle hown h => load_step hle hown h) hle
    exact ⟨r, hr, hown, (rest_iff (h.last hr)).mp hrest⟩
  · intro r hr hown
    have hlen := run_length_le hr hown
    exact ⟨by omega, rest_iff (h.last hr)⟩

theorem settles_relayTurns : ∃ r, (lts noPlugin).Run (outcome noPlugin [] relayTurns) r ∧
    Lts.Labelled Label.Own r ∧ AtRest (Lts.last (outcome noPlugin [] relayTurns) r) :=
  (settles (reachable_outcome noPlugin [] relayTurns)).1

end Server

end SlpServer
