import SlpServer.Slp.Execution

/-!
# Relay integrity

A datagram goes from the socket to a peer's channel, from there to the event
channel and from there to `send_lan`.  `Flow` says that it stays what it was on
the first part of the way, and in order: what a task sends to the event channel,
followed by what it still has, is in the order of arrival.  `Delivery` says that
no event is at work twice and no copy of it goes to one address twice.

`relay_integrity` puts the two together.
-/

namespace SlpServer

open Rust

/-! ### Entries of a list that grows or is written to -/

section
variable {α : Type} {xs : List α} {i j : Nat} {x y z : α}

theorem getElem?_append_of_some (h : xs[i]? = some x) (ys : List α) :
    (xs ++ ys)[i]? = some x := by
  rw [List.getElem?_append_left (List.getElem?_eq_some_iff.mp h).1, h]

theorem getElem?_concat_cases (h : (xs ++ [y])[i]? = some z) :
    xs[i]? = some z ∨ (i = xs.length ∧ z = y) := by
  rcases Nat.lt_trichotomy i xs.length with hi | hi | hi
  · rw [List.getElem?_append_left hi] at h
    exact .inl h
  · rw [hi, List.getElem?_concat_length] at h
    cases h
    exact .inr ⟨hi, rfl⟩
  · rw [List.getElem?_eq_none (by rw [List.length_append, List.length_singleton]; omega)] at h
    cases h

theorem getElem?_set_of_some (h : xs[i]? = some x) (y : α) : (xs.set i y)[i]? = some y :=
  List.getElem?_set_self (List.getElem?_eq_some_iff.mp h).1

theorem getElem?_set_cases (h : xs[i]? = some x) (hz : (xs.set i y)[j]? = some z) :
    (i = j ∧ z = y) ∨ (i ≠ j ∧ xs[j]? = some z) := by
  by_cases hj : i = j
  · rw [← hj, getElem?_set_of_some h] at hz
    cases hz
    exact .inl ⟨hj, rfl⟩
  · rw [List.getElem?_set_ne hj] at hz
    exact .inr ⟨hj, hz⟩

end

/-! ### What a task has -/

namespace PeerTask

/-- The datagram a task has received and not dealt with. -/
def inHand : Phase → Option Stamped
  | .handling d => some d
  | .sending d _ => some d
  | _ => none

/-- The datagrams that are with a task, the oldest first. -/
def pipeline (t : PeerTask) : List Stamped := (inHand t.phase).toList ++ t.rx.queue

/-- The datagram has a frame for the LAN in it. -/
def Relayable (packet : Packet) : Prop :=
  (∃ v, ForwarderFrame.parse packet = .ok (.ok (.ipv4 v))) ∨
    ∃ v, ForwarderFrame.parse packet = .ok (.ok (.ipv4Frag v))

theorem doPacket_total (packet : Packet) : ∃ r, doPacket packet = .ok r ∧
    ∀ out, r = .ok (some out) → out.data = packet := by
  obtain ⟨r, hr, _⟩ := ForwarderFrame.parse_total packet
  rw [doPacket, hr, ok_bind]
  cases r with
  | error e => exact ⟨_, rfl, fun out h => by cases h⟩
  | ok f =>
    cases f with
    | ipv4 v =>
      simp only [v.outAddr_ok, ok_bind]
      exact ⟨_, rfl, fun out h => by cases h; rfl⟩
    | ipv4Frag v =>
      simp only [v.outAddr_ok, ok_bind]
      exact ⟨_, rfl, fun out h => by cases h; rfl⟩
    | keepalive | ping | authMe | info => exact ⟨_, rfl, fun out h => by cases h⟩

theorem relayable_iff (packet : Packet) :
    Relayable packet ↔ ∃ out, doPacket packet = .ok (.ok (some out)) := by
  obtain ⟨r, hr, _⟩ := ForwarderFrame.parse_total packet
  rw [Relayable, doPacket, hr, ok_bind]
  cases r with
  | error e => simp
  | ok f =>
    cases f with
    | ipv4 v | ipv4Frag v => simp [v.outAddr_ok]
    | keepalive | ping | authMe | info => simp

section
variable {now : Instant} {orphan closed : Bool} {i : PeerId} {t t' : PeerTask} {e : Option Posted}

/-- **What a step does with the datagrams of its task**: it keeps them, or
it takes the first one out (sends it, loses it, or has no frame of it to send),
or it drops what is in the channel. -/
theorem Step.pipeline_cases (h : t.Step now orphan closed i e t') :
    ((e = none ∨ e = some ⟨i, none, .close t.addr⟩) ∧ t'.pipeline = t.pipeline ∧
      t.phase ≠ .leaving ∧ ∀ d out, t.phase ≠ .sending d out) ∨
    (∃ d, t.phase = .handling d ∧ ¬ Relayable d.packet.data ∧ e = none ∧
      t.pipeline = d :: t'.pipeline) ∨
    (∃ d out, t.phase = .sending d out ∧ e = some ⟨i, some d.stamp, .sendLAN t.addr out⟩ ∧
      t.pipeline = d :: t'.pipeline) ∨
    (∃ d out, t.phase = .sending d out ∧ closed = true ∧ e = none ∧
      t.pipeline = d :: t'.pipeline) ∨
    (t.phase = .leaving ∧ e = none ∧ t.pipeline = t.rx.queue ∧ t'.pipeline = []) := by
  cases h with
  | arm h => exact .inl ⟨.inl rfl, by simp [pipeline, inHand, h], by simp [h]⟩
  | recv h hrx =>
    refine .inl ⟨.inl rfl, ?_, by simp [h]⟩
    simp [pipeline, inHand, h, (Chan.recv_eq_some hrx).1]
  | recvNone h => exact .inl ⟨.inl rfl, by simp [pipeline, inHand, h], by simp [h]⟩
  | timeout h => exact .inl ⟨.inl rfl, by simp [pipeline, inHand, h], by simp [h]⟩
  | @handle d r h hr =>
    match r, hr with
    | .ok (some out), hr =>
      exact .inl ⟨.inl rfl, by simp [pipeline, inHand, h, phaseAfter], by simp [h]⟩
    | .ok none, hr | .error _, hr =>
      refine .inr (.inl ⟨d, h, ?_, rfl, by simp [pipeline, inHand, h, phaseAfter]⟩)
      rw [relayable_iff]
      rintro ⟨out, hout⟩
      rw [hr] at hout
      cases hout
  | @send d out h =>
    exact .inr (.inr (.inl ⟨d, out, h, rfl, by simp [pipeline, inHand, h]⟩))
  | @sendFails d out h hclosed =>
    exact .inr (.inr (.inr (.inl ⟨d, out, h, hclosed, rfl, by simp [pipeline, inHand, h]⟩)))
  | dropRx h =>
    exact .inr (.inr (.inr (.inr ⟨h, rfl, by simp [pipeline, inHand, h], by
      simp [pipeline, inHand]⟩)))
  | sendClose h => exact .inl ⟨.inr rfl, by simp [pipeline, inHand, h], by simp [h]⟩
  | sendCloseFails h => exact .inl ⟨.inl rfl, by simp [pipeline, inHand, h], by simp [h]⟩

/-- What a step sends: the frame in its task's hand, or the `Close`. -/
theorem Step.sends_cases {x : Posted} (h : t.Step now orphan closed i (some x) t') :
    x = ⟨i, none, .close t.addr⟩ ∨
    ∃ d out, t.phase = .sending d out ∧ x = ⟨i, some d.stamp, .sendLAN t.addr out⟩ ∧
      t.pipeline = d :: t'.pipeline := by
  cases h with
  | @send d out h => exact .inr ⟨d, out, h, rfl, by simp [pipeline, inHand, h]⟩
  | sendClose h => exact .inl rfl

theorem Step.addr (h : t.Step now orphan closed i e t') : t'.addr = t.addr := by
  cases h <;> rfl

theorem Step.sublist (h : t.Step now orphan closed i e t') : t'.pipeline.Sublist t.pipeline := by
  obtain ⟨_, h, _⟩ | ⟨d, _, _, _, h⟩ | ⟨d, _, _, _, h⟩ | ⟨d, _, _, _, _, h⟩ | ⟨_, _, _, h⟩ :=
    h.pipeline_cases
  · rw [h]
  · rw [h]
    exact List.sublist_cons_self _ _
  · rw [h]
    exact List.sublist_cons_self _ _
  · rw [h]
    exact List.sublist_cons_self _ _
  · rw [h]
    exact List.nil_sublist _

/-- A task in `sending` has come from the datagram in its hand. -/
theorem Step.sending (h : t.Step now orphan closed i e t') {d : Stamped} {out : OutPacket}
    (hs : t'.phase = .sending d out) : doPacket d.packet.data = .ok (.ok (some out)) := by
  cases h with
  | @handle d' r h hr =>
    match r, hr with
    | .ok (some out'), hr => cases hs; exact hr
    | .ok none, hr => cases hs
    | .error _, hr => cases hs
  | arm | recv | recvNone | timeout | send | sendFails | dropRx | sendClose | sendCloseFails =>
    cases hs

end

end PeerTask

open PeerTask

/-- The datagram the receive loop is busy with. -/
def RecvPhase.held : RecvPhase → Option Stamped
  | .filtering d => some d
  | .deciding d => some d
  | _ => none

namespace Server

variable {P : Type}

/-! ### Up to the event channel -/

/-- The numbers of the datagrams task `i` has sent on, in order. -/
def stampsOf (i : PeerId) (posted : List Posted) : List Nat :=
  (posted.filter fun e => e.peer = i).filterMap Posted.stamp

theorem stampsOf_append (i : PeerId) (posted es : List Posted) :
    stampsOf i (posted ++ es) = stampsOf i posted ++ stampsOf i es := by
  rw [stampsOf, List.filter_append, List.filterMap_append]
  rfl

theorem stampsOf_eq_nil {i : PeerId} {posted : List Posted} (h : ∀ e ∈ posted, e.peer ≠ i) :
    stampsOf i posted = [] := by
  rw [stampsOf, List.filter_eq_nil_iff.mpr fun e he => by simpa using h e he]
  rfl

/-- Task `i` was given datagram `n`. -/
def Accepted (handed : List Handed) (i : PeerId) (n : Nat) : Prop :=
  ∃ h ∈ handed, h.peer = i ∧ h.stamp = n ∧ h.result = .ok ()

theorem Accepted.mono {handed : List Handed} {i : PeerId} {n : Nat} (h : Accepted handed i n)
    (more : List Handed) : Accepted (handed ++ more) i n := by
  obtain ⟨x, hx, h⟩ := h
  exact ⟨x, List.mem_append_left _ hx, h⟩

/-- What task `i` has was received from its client and accepted for it, and
comes, in order, after what it has sent on. -/
structure TaskFlow (received : List InPacket) (handed : List Handed) (posted : List Posted)
    (i : PeerId) (t : PeerTask) : Prop where
  held : ∀ d ∈ t.pipeline, Accepted handed i d.stamp ∧ received[d.stamp]? = some d.packet ∧
    d.packet.addr = t.addr
  sending : ∀ d out, t.phase = .sending d out → doPacket d.packet.data = .ok (.ok (some out))
  ordered : (stampsOf i posted ++ t.pipeline.map Stamped.stamp).Pairwise (· < ·)

/-- The event was made of a datagram from the client it names, or tells of the
end of the task that sent it. -/
def Genuine (received : List InPacket) (handed : List Handed) (tasks : List PeerTask)
    (e : Posted) : Prop :=
  ∃ t, tasks[e.peer]? = some t ∧
    ((∃ n out, e.stamp = some n ∧ e.event = .sendLAN t.addr out ∧ Accepted handed e.peer n ∧
      received[n]? = some ⟨out.data, t.addr⟩) ∨
    (e.stamp = none ∧ e.event = .close t.addr))

structure Flow (s : Server P) : Prop where
  recv : ∀ d, s.recv.held = some d → s.received[d.stamp]? = some d.packet ∧
    ∀ h ∈ s.handed, h.stamp < d.stamp
  handed : (s.handed.map Handed.stamp).Pairwise (· < ·)
  handed_lt : ∀ h ∈ s.handed, h.stamp < s.received.length
  tasks : ∀ i t, s.tasks[i]? = some t → TaskFlow s.received s.handed s.posted i t
  posted : ∀ e ∈ s.posted, Genuine s.received s.handed s.tasks e
  cache : ∀ a p, s.manager.cache.lookup a = some p → ∃ t, s.tasks[p.sender]? = some t ∧ t.addr = a

theorem flow_new (ignoreIdle : Bool) (plugins : List P) : Flow (new ignoreIdle plugins) where
  recv d h := by cases h
  handed := .nil
  handed_lt h hh := by cases hh
  tasks i t h := by cases h
  posted e he := by cases he
  cache a p h := by cases h

theorem TaskFlow.mono {received : List InPacket} {handed : List Handed} {posted : List Posted}
    {i : PeerId} {t : PeerTask} (h : TaskFlow received handed posted i t) (packets : List InPacket)
    (more : List Handed) : TaskFlow (received ++ packets) (handed ++ more) posted i t where
  held d hd := by
    obtain ⟨ha, hr, hd⟩ := h.held d hd
    exact ⟨ha.mono more, getElem?_append_of_some hr packets, hd⟩
  sending := h.sending
  ordered := h.ordered

/-- The tasks are the same but for what they are at. -/
def SameAddrs (tasks tasks' : List PeerTask) : Prop :=
  ∀ (i : PeerId) (t : PeerTask), tasks[i]? = some t →
    ∃ t' : PeerTask, tasks'[i]? = some t' ∧ t'.addr = t.addr

theorem SameAddrs.task_of {tasks tasks' : List PeerTask} (h : SameAddrs tasks tasks') {i : PeerId}
    {addr : SocketAddr} (ht : ∃ t, tasks[i]? = some t ∧ t.addr = addr) :
    ∃ t, tasks'[i]? = some t ∧ t.addr = addr := by
  obtain ⟨t, ht, haddr⟩ := ht
  obtain ⟨t', ht', haddr'⟩ := h i t ht
  exact ⟨t', ht', haddr'.trans haddr⟩

theorem sameAddrs_set {tasks : List PeerTask} {i : PeerId} {t t' : PeerTask}
    (ht : tasks[i]? = some t) (h : t'.addr = t.addr) : SameAddrs tasks (tasks.set i t') := by
  intro j u hu
  by_cases hj : i = j
  · subst hj
    rw [ht] at hu
    cases hu
    exact ⟨t', getElem?_set_of_some ht t', h⟩
  · exact ⟨u, by rw [List.getElem?_set_ne hj]; exact hu, rfl⟩

theorem sameAddrs_append (tasks more : List PeerTask) : SameAddrs tasks (tasks ++ more) :=
  fun _ t ht => ⟨t, getElem?_append_of_some ht more, rfl⟩

theorem Genuine.mono {received : List InPacket} {handed : List Handed}
    {tasks tasks' : List PeerTask} {e : Posted} (h : Genuine received handed tasks e)
    (packets : List InPacket) (more : List Handed) (hsame : SameAddrs tasks tasks') :
    Genuine (received ++ packets) (handed ++ more) tasks' e := by
  obtain ⟨t, ht, h⟩ := h
  obtain ⟨t', ht', haddr⟩ := hsame _ _ ht
  refine ⟨t', ht', ?_⟩
  rw [haddr]
  rcases h with ⟨n, out, hn, he, ha, hr⟩ | h
  · exact .inl ⟨n, out, hn, he, ha.mono more, getElem?_append_of_some hr packets⟩
  · exact .inr h

/-- A step of its task keeps the datagrams of a client in order. -/
theorem TaskFlow.step {received : List InPacket} {handed : List Handed} {posted : List Posted}
    {i : PeerId} {t t' : PeerTask} {now : Instant} {orphan closed : Bool} {e : Option Posted}
    (h : TaskFlow received handed posted i t) (hs : t.Step now orphan closed i e t') :
    TaskFlow received handed (posted ++ e.toList) i t' where
  held d hd := by
    rw [hs.addr]
    exact h.held d (hs.sublist.subset hd)
  sending d out := hs.sending
  ordered := by
    have ho := h.ordered
    have hfewer := ho.sublist ((hs.sublist.map Stamped.stamp).append_left (stampsOf i posted))
    rw [stampsOf_append]
    cases e with
    | none =>
      rw [show stampsOf i (none : Option Posted).toList = [] from rfl, List.append_nil]
      exact hfewer
    | some x =>
      obtain rfl | ⟨d, out, _, rfl, hp⟩ := hs.sends_cases
      · have hnil : stampsOf i (some (⟨i, none, .close t.addr⟩ : Posted)).toList = [] := by
          simp [stampsOf]
        rw [hnil, List.append_nil]
        exact hfewer
      · have hone : stampsOf i (some (⟨i, some d.stamp, .sendLAN t.addr out⟩ : Posted)).toList =
            [d.stamp] := by simp [stampsOf]
        rw [hp] at ho
        rw [hone, List.append_assoc]
        exact ho

theorem TaskFlow.other {received : List InPacket} {handed : List Handed} {posted : List Posted}
    {i : PeerId} {t : PeerTask} (h : TaskFlow received handed posted i t) {es : List Posted}
    (hes : ∀ e ∈ es, e.peer ≠ i) : TaskFlow received handed (posted ++ es) i t where
  held := h.held
  sending := h.sending
  ordered := by
    rw [stampsOf_append, stampsOf_eq_nil hes, List.append_nil]
    exact h.ordered

theorem TaskFlow.genuine {s : Server P} {i : PeerId} {t t' : PeerTask} {now : Instant}
    {orphan closed : Bool} {e : Posted} (h : TaskFlow s.received s.handed s.posted i t)
    (ht : s.tasks[i]? = some t) (hs : t.Step now orphan closed i (some e) t') :
    e.peer = i ∧ Genuine s.received s.handed s.tasks e := by
  obtain rfl | ⟨d, out, hd, rfl, hp⟩ := hs.sends_cases
  · exact ⟨rfl, t, ht, .inr ⟨rfl, rfl⟩⟩
  · obtain ⟨ha, hr, haddr⟩ := h.held d (by rw [hp]; simp)
    obtain ⟨r, hdo, hout⟩ := doPacket_total d.packet.data
    rw [h.sending d out hd] at hdo
    cases hdo
    refine ⟨rfl, t, ht, .inl ⟨d.stamp, out, rfl, rfl, ha, ?_⟩⟩
    rw [hr, hout out rfl, ← haddr]

theorem Flow.task {s : Server P} (hf : Flow s) {i : PeerId} {t t' : PeerTask} {now : Instant}
    {orphan closed : Bool} {e : Option Posted} (ht : s.tasks[i]? = some t)
    (hs : t.Step now orphan closed i e t') (events : Chan Posted 100) :
    Flow { s with tasks := s.tasks.set i t', events, posted := s.posted ++ e.toList } := by
  have hsame : SameAddrs s.tasks (s.tasks.set i t') := sameAddrs_set ht hs.addr
  have hpeer : ∀ x ∈ e.toList, x.peer = i := by
    intro x hx
    cases e with
    | none => cases hx
    | some y =>
      rw [List.mem_singleton.mp hx]
      exact ((hf.tasks i t ht).genuine ht hs).1
  refine ⟨hf.recv, hf.handed, hf.handed_lt, ?_, ?_, ?_⟩
  · intro j u hu
    obtain ⟨rfl, rfl⟩ | ⟨hj, hu⟩ := getElem?_set_cases ht hu
    · exact (hf.tasks i t ht).step hs
    · exact (hf.tasks j u hu).other fun x hx => by rw [hpeer x hx]; exact hj
  · intro x hx
    have hgen : Genuine s.received s.handed s.tasks x := by
      rcases List.mem_append.mp hx with hx | hx
      · exact hf.posted x hx
      · cases e with
        | none => cases hx
        | some y =>
          rw [List.mem_singleton.mp hx]
          exact ((hf.tasks i t ht).genuine ht hs).2
    simpa using hgen.mono [] [] hsame
  · intro a p hp
    exact hsame.task_of (hf.cache a p hp)

theorem entry_cases {s : Server P} {addr : SocketAddr} {peer : Peer} {tasks : List PeerTask}
    (h : s.entry addr = (peer, tasks)) :
    (s.manager.cache.lookup addr = some peer ∧ tasks = s.tasks) ∨
    (s.manager.cache.lookup addr = none ∧ peer = .new s.tasks.length s.now ∧
      tasks = s.tasks ++ [.spawn addr]) := by
  rw [entry] at h
  split at h
  · rename_i p hp
    cases h
    exact .inl ⟨hp, rfl⟩
  · rename_i hp
    cases h
    exact .inr ⟨hp, rfl, rfl⟩

/-- A new peer takes no task's place. -/
theorem tasks_of_entry {s : Server P} {addr : SocketAddr} {peer : Peer} {tasks : List PeerTask}
    (h : s.entry addr = (peer, tasks)) {i : PeerId} {t : PeerTask} (ht : s.tasks[i]? = some t) :
    tasks[i]? = some t := by
  obtain ⟨_, rfl⟩ | ⟨_, _, rfl⟩ := entry_cases h
  · exact ht
  · exact getElem?_append_of_some ht _

theorem Flow.entry {s : Server P} (hf : Flow s) {addr : SocketAddr} {peer : Peer}
    {tasks : List PeerTask} {t : PeerTask} (h : s.entry addr = (peer, tasks))
    (ht : tasks[peer.sender]? = some t) : Flow { s with tasks } ∧ t.addr = addr := by
  obtain ⟨hl, rfl⟩ | ⟨hl, rfl, rfl⟩ := entry_cases h
  · obtain ⟨u, hu, haddr⟩ := hf.cache addr peer hl
    rw [ht] at hu
    cases hu
    exact ⟨hf, haddr⟩
  · have hsame := sameAddrs_append s.tasks [.spawn addr]
    have hnew : (s.tasks ++ [PeerTask.spawn addr])[s.tasks.length]? = some (.spawn addr) :=
      List.getElem?_concat_length
    refine ⟨⟨hf.recv, hf.handed, hf.handed_lt, ?_, ?_, ?_⟩, ?_⟩
    · intro j u hu
      obtain hu | ⟨rfl, rfl⟩ := getElem?_concat_cases hu
      · exact hf.tasks j u hu
      · -- nothing has been sent under the number of the new task
        refine ⟨fun d hd => (nomatch hd), fun d out hd => (nomatch hd), ?_⟩
        rw [stampsOf_eq_nil]
        · exact .nil
        · intro x hx hxj
          obtain ⟨v, hv, _⟩ := hf.posted x hx
          rw [hxj, List.getElem?_eq_none (Nat.le_refl _)] at hv
          cases hv
    · intro x hx
      simpa using (hf.posted x hx).mono [] [] hsame
    · intro a p hp
      exact hsame.task_of (hf.cache a p hp)
    · rw [Peer.new, hnew] at ht
      cases ht
      rfl

theorem trySend_cases (t : PeerTask) (d : Stamped) :
    ((trySend t d).2 = .ok () ∧ t.rx.closed = false ∧ (trySend t d).1.rx.closed = false ∧
      (trySend t d).1.pipeline = t.pipeline ++ [d]) ∨
    ((trySend t d).2 = .error .full ∧ t.rx.closed = false ∧ (trySend t d).1 = t) ∨
    ((trySend t d).2 = .error .closed ∧ t.rx.closed = true ∧ (trySend t d).1 = t) := by
  unfold trySend
  cases h : t.rx.trySend d with
  | ok rx =>
    obtain ⟨ho, hc, hq⟩ := Chan.trySend_eq_ok h
    exact .inl ⟨rfl, ho, hc, by simp [pipeline, hq]⟩
  | error e =>
    cases e with
    | full =>
      refine .inr (.inl ⟨rfl, ?_, rfl⟩)
      by_contra hc
      rw [Bool.not_eq_false, ← Chan.trySend_eq_closed (x := d), h] at hc
      cases hc
    | closed => exact .inr (.inr ⟨rfl, Chan.trySend_eq_closed.mp h, rfl⟩)

@[simp] theorem addr_trySend (t : PeerTask) (d : Stamped) : (trySend t d).1.addr = t.addr := by
  unfold trySend
  split <;> rfl

@[simp] theorem phase_trySend (t : PeerTask) (d : Stamped) : (trySend t d).1.phase = t.phase := by
  unfold trySend
  split <;> rfl

theorem TaskFlow.trySend {s : Server P} (hf : Flow s) {i : PeerId} {t : PeerTask}
    (ht : s.tasks[i]? = some t) {d : Stamped} (hd : s.recv.held = some d)
    (haddr : d.packet.addr = t.addr) :
    TaskFlow s.received (s.handed ++ [⟨i, d.stamp, s.now, (trySend t d).2⟩]) s.posted i
      (trySend t d).1 := by
  have h := (hf.tasks i t ht).mono [] [⟨i, d.stamp, s.now, (Server.trySend t d).2⟩]
  rw [List.append_nil] at h
  obtain ⟨hr, _, _, hp⟩ | ⟨_, _, hsame⟩ | ⟨_, _, hsame⟩ := trySend_cases t d
  · obtain ⟨hrec, hlt⟩ := hf.recv d hd
    refine ⟨?_, ?_, ?_⟩
    · intro x hx
      rw [hp] at hx
      rw [addr_trySend]
      rcases List.mem_append.mp hx with hx | hx
      · exact h.held x hx
      · rw [List.mem_singleton.mp hx]
        exact ⟨⟨_, List.mem_append_right _ (List.mem_singleton_self _), rfl, rfl, hr⟩, hrec, haddr⟩
    · intro x out hx
      rw [phase_trySend] at hx
      exact h.sending x out hx
    · rw [hp, List.map_append, ← List.append_assoc, List.pairwise_append]
      refine ⟨h.ordered, List.pairwise_singleton _ _, ?_⟩
      intro n hn m hm
      rw [List.map_singleton, List.mem_singleton] at hm
      rw [hm]
      -- whatever is already there was handed over before
      have hacc : Accepted s.handed i n := by
        rcases List.mem_append.mp hn with hn | hn
        · obtain ⟨e, he, hstamp⟩ := List.mem_filterMap.mp hn
          obtain ⟨he, hpeer⟩ := List.mem_filter.mp he
          obtain ⟨u, hu, h | h⟩ := hf.posted e he
          · obtain ⟨n', out, hn', _, ha, _⟩ := h
            rw [hstamp] at hn'
            cases hn'
            rw [of_decide_eq_true hpeer] at ha
            exact ha
          · rw [hstamp] at h
            cases h.1
        · obtain ⟨x, hx, rfl⟩ := List.mem_map.mp hn
          exact ((hf.tasks i t ht).held x hx).1
      obtain ⟨x, hx, _, rfl, _⟩ := hacc
      exact hlt x hx
  · rw [hsame]
    exact h
  · rw [hsame]
    exact h

theorem Flow.dispatch {s : Server P} (hf : Flow s) {d : Stamped} {peer peer' : Peer}
    {tasks : List PeerTask} {t : PeerTask} (hd : s.recv.held = some d)
    (hentry : s.entry d.packet.addr = (peer, tasks)) (hsender : peer'.sender = peer.sender)
    (ht : tasks[peer.sender]? = some t) :
    Flow { s with
      recv := .idle
      manager := s.manager.peerMut d.packet.addr peer fun _ => peer'
      tasks := tasks.set peer.sender (trySend t d).1
      handed := s.handed ++ [⟨peer.sender, d.stamp, s.now, (trySend t d).2⟩]
      seen := s.seen ++ [.heard d peer'] } := by
  obtain ⟨he, haddr⟩ := hf.entry hentry ht
  obtain ⟨hrec, hlt⟩ := hf.recv d hd
  have hsame : SameAddrs tasks (tasks.set peer.sender (Server.trySend t d).1) :=
    sameAddrs_set ht (addr_trySend t d)
  refine ⟨fun x hx => (nomatch hx), ?_, ?_, ?_, ?_, ?_⟩
  · rw [List.map_append, List.pairwise_append]
    refine ⟨hf.handed, List.pairwise_singleton _ _, ?_⟩
    intro n hn m hm
    obtain ⟨x, hx, rfl⟩ := List.mem_map.mp hn
    rw [List.map_singleton, List.mem_singleton] at hm
    rw [hm]
    exact hlt x hx
  · intro x hx
    rcases List.mem_append.mp hx with hx | hx
    · exact hf.handed_lt x hx
    · rw [List.mem_singleton.mp hx]
      exact (List.getElem?_eq_some_iff.mp hrec).1
  · intro j u hu
    obtain ⟨rfl, rfl⟩ | ⟨_, hu⟩ := getElem?_set_cases ht hu
    · exact TaskFlow.trySend he ht hd haddr.symm
    · simpa using (he.tasks j u hu).mono [] _
  · intro x hx
    simpa using (he.posted x hx).mono [] _ hsame
  · intro a p hp
    rw [InnerPeerManager.lookup_cache_peerMut] at hp
    split at hp
    · rename_i ha
      cases hp
      rw [hsender, ha]
      exact ⟨_, getElem?_set_of_some ht _, (addr_trySend t d).trans haddr⟩
    · exact hsame.task_of (he.cache a p hp)

/-- **Every step keeps the flow.** -/
theorem Flow.step {plugin : Plugin P} {s s' : Server P} {l : Label} (hf : Flow s)
    (h : Step plugin s l s') : Flow s' := by
  cases h with
  | receive packet h =>
    refine ⟨?_, hf.handed, ?_, ?_, ?_, hf.cache⟩
    · intro d hd
      cases hd
      exact ⟨List.getElem?_concat_length, hf.handed_lt⟩
    · intro x hx
      rw [List.length_append]
      exact Nat.lt_add_right _ (hf.handed_lt x hx)
    · intro i t ht
      simpa using (hf.tasks i t ht).mono [packet] []
    · intro e he
      simpa using (hf.posted e he).mono [packet] [] fun _ t ht => ⟨t, ht, rfl⟩
  | filter h horder hin =>
    refine ⟨?_, hf.handed, hf.handed_lt, hf.tasks, hf.posted, hf.cache⟩
    intro d hd
    cases hd
    exact hf.recv _ (by rw [h]; rfl)
  | dispatch h hparse hping hentry hon ht =>
    exact hf.dispatch (by rw [h]; rfl) hentry (Peer.sender_onPacket hon) ht
  | task ht hstep => simpa using hf.task ht hstep s.events
  | taskSends ht hstep hsend => exact hf.task ht hstep _
  | close hjobs he =>
    refine ⟨hf.recv, hf.handed, hf.handed_lt, hf.tasks, hf.posted, ?_⟩
    intro a p hp
    rw [InnerPeerManager.lookup_cache_remove] at hp
    split at hp
    · cases hp
    · exact hf.cache a p hp
  | route hjobs he haddrs =>
    refine ⟨hf.recv, hf.handed, hf.handed_lt, hf.tasks, hf.posted, ?_⟩
    intro a p hp
    rw [InnerPeerManager.cache_getDestSockaddr] at hp
    exact hf.cache a p hp
  | recvFails | filterPanics | discard | pong =>
    -- the receive loop lets go of its datagram
    exact ⟨fun d hd => (nomatch hd), hf.handed, hf.handed_lt, hf.tasks, hf.posted, hf.cache⟩
  | tick | configure | take | sendLan | drop | crash | sendTo | finish =>
    exact ⟨hf.recv, hf.handed, hf.handed_lt, hf.tasks, hf.posted, hf.cache⟩

theorem flow_of_reachable {plugin : Plugin P} {s : Server P} (h : (lts plugin).Reachable s) :
    Flow s := by
  refine Lts.invariant (p := Flow) ?_ (fun _ _ _ hf hs => hf.step hs) h
  rintro _ ⟨ignoreIdle, plugins, rfl⟩
  exact flow_new ignoreIdle plugins

/-! ### From the event channel on -/

/-- What is with a task has not been sent on. -/
theorem Flow.not_posted {s : Server P} (hf : Flow s) {i : PeerId} {t : PeerTask}
    (ht : s.tasks[i]? = some t) {d : Stamped} (hd : d ∈ t.pipeline) :
    ∀ x ∈ s.posted, x.stamp ≠ some d.stamp := by
  intro x hx hxn
  obtain ⟨⟨a, ha, hai, han, _⟩, _, _⟩ := (hf.tasks i t ht).held d hd
  obtain ⟨_, _, ⟨n', out', hn', _, ⟨b, hb, hbi, hbn, _⟩, _⟩ | ⟨hnone, _⟩⟩ := hf.posted x hx
  · rw [hxn] at hn'
    cases hn'
    -- a number is handed over once, so both are of task `i`
    have hab : a = b := by
      have hnodup : (s.handed.map Handed.stamp).Nodup := hf.handed.imp Nat.ne_of_lt
      exact List.inj_on_of_nodup_map hnodup ha hb (han.trans hbn.symm)
    have hpeer : x.peer = i := by rw [← hbi, ← hab, hai]
    have hmem : d.stamp ∈ stampsOf i s.posted :=
      List.mem_filterMap.mpr ⟨x, List.mem_filter.mpr ⟨hx, by simpa using hpeer⟩, hxn⟩
    have hlt := (List.pairwise_append.mp (hf.tasks i t ht).ordered).2.2 _ hmem _
      (List.mem_map_of_mem hd)
    exact absurd hlt (Nat.lt_irrefl _)
  · rw [hxn] at hnone
    cases hnone

/-- No datagram is sent on twice. -/
theorem Flow.fresh {s : Server P} (hf : Flow s) {i : PeerId} {t t' : PeerTask} {now : Instant}
    {orphan closed : Bool} {e : Posted} (ht : s.tasks[i]? = some t)
    (hs : t.Step now orphan closed i (some e) t') {n : Nat} (hn : e.stamp = some n) :
    ∀ x ∈ s.posted, x.stamp ≠ some n := by
  obtain rfl | ⟨d, out, _, rfl, hp⟩ := hs.sends_cases
  · cases hn
  · cases hn
    exact hf.not_posted ht (by rw [hp]; simp)

/-- The addresses an event still goes to. -/
def JobPhase.left : JobPhase → List SocketAddr
  | .started => []
  | .routed addrs => addrs
  | .sending addrs => addrs

/-- The number of the datagram a job is about. -/
def jobStamp (j : Job) : Option Nat := j.posted.stamp

/-- The events sent and not dealt with, as work of the event task. -/
def work (s : Server P) : List Job := s.events.queue.map (⟨·, .started⟩) ++ s.jobs

/-- Each event is at work once, and no copy of it goes to one address twice. -/
structure Delivery (posted : List Posted) (sent : List Sent) (jobs : List Job) : Prop where
  nodup : (jobs.filterMap jobStamp).Nodup
  known : ∀ j ∈ jobs, j.posted ∈ posted
  addrs : ∀ j ∈ jobs, (JobPhase.left j.phase).Nodup
  fresh : ∀ j ∈ jobs, ∀ n, j.posted.stamp = some n → ∀ x ∈ sent, x.posted.stamp = some n →
    ∃ rest, j.phase = .sending rest ∧ x.addr ∉ rest
  copied : ∀ x ∈ sent, x.posted ∈ posted
  once : (sent.map fun x => (x.posted.stamp, x.addr)).Nodup

theorem Delivery.of_sublist {posted : List Posted} {sent : List Sent} {jobs jobs' : List Job}
    (h : Delivery posted sent jobs) (hs : jobs'.Sublist jobs) : Delivery posted sent jobs' where
  nodup := h.nodup.sublist (hs.filterMap _)
  known j hj := h.known j (hs.subset hj)
  addrs j hj := h.addrs j (hs.subset hj)
  fresh j hj := h.fresh j (hs.subset hj)
  copied := h.copied
  once := h.once

theorem Delivery.of_perm {posted : List Posted} {sent : List Sent} {jobs jobs' : List Job}
    (h : Delivery posted sent jobs) (hp : jobs.Perm jobs') : Delivery posted sent jobs' where
  nodup := (hp.filterMap _).nodup_iff.mp h.nodup
  known j hj := h.known j (hp.symm.subset hj)
  addrs j hj := h.addrs j (hp.symm.subset hj)
  fresh j hj := h.fresh j (hp.symm.subset hj)
  copied := h.copied
  once := h.once

theorem Delivery.stamp_ne {posted : List Posted} {sent : List Sent} {j : Job} {jobs : List Job}
    (h : Delivery posted sent (j :: jobs)) {n : Nat} (hn : j.posted.stamp = some n) :
    ∀ x ∈ jobs, x.posted.stamp ≠ some n := by
  intro x hx hxn
  have hstamp : jobStamp j = some n := hn
  have hnodup := h.nodup
  rw [List.filterMap_cons_some hstamp, List.nodup_cons] at hnodup
  exact hnodup.1 (List.mem_filterMap.mpr ⟨x, hx, hxn⟩)

theorem Delivery.push {posted : List Posted} {sent : List Sent} {jobs : List Job}
    (h : Delivery posted sent jobs) {e : Posted}
    (he : ∀ n, e.stamp = some n → ∀ x ∈ posted, x.stamp ≠ some n) :
    Delivery (posted ++ [e]) sent (⟨e, .started⟩ :: jobs) where
  nodup := by
    cases hn : jobStamp ⟨e, .started⟩ with
    | none =>
      rw [List.filterMap_cons_none hn]
      exact h.nodup
    | some n =>
      rw [List.filterMap_cons_some hn, List.nodup_cons]
      refine ⟨?_, h.nodup⟩
      intro hmem
      obtain ⟨j, hj, hjn⟩ := List.mem_filterMap.mp hmem
      exact he n hn _ (h.known j hj) hjn
  known j hj := by
    rcases List.mem_cons.mp hj with rfl | hj
    · simp
    · exact List.mem_append_left _ (h.known j hj)
  addrs j hj := by
    rcases List.mem_cons.mp hj with rfl | hj
    · exact List.nodup_nil
    · exact h.addrs j hj
  fresh j hj n hn x hx hxn := by
    rcases List.mem_cons.mp hj with rfl | hj
    · exact absurd hxn (he n hn _ (h.copied x hx))
    · exact h.fresh j hj n hn x hx hxn
  copied x hx := List.mem_append_left _ (h.copied x hx)
  once := h.once

/-- **One piece of work goes on**, and perhaps a copy goes out with it, to an
address it has not gone to. -/
theorem Delivery.progress {posted : List Posted} {sent : List Sent} {e : Posted}
    {phase phase' : JobPhase} {jobs : List Job} (h : Delivery posted sent (⟨e, phase⟩ :: jobs))
    {out : List Sent} (hout : ∀ x ∈ out, x.posted = e)
    (hphase : (JobPhase.left phase').Nodup) {n : Nat} (hn : e.stamp = some n)
    (hfresh : ∀ x ∈ sent ++ out, x.posted.stamp = some n →
      ∃ rest, phase' = .sending rest ∧ x.addr ∉ rest)
    (honce : ((sent ++ out).map fun x => (x.posted.stamp, x.addr)).Nodup) :
    Delivery posted (sent ++ out) (⟨e, phase'⟩ :: jobs) where
  nodup := h.nodup
  known j hj := by
    rcases List.mem_cons.mp hj with rfl | hj
    · exact h.known ⟨e, phase⟩ (List.mem_cons_self ..)
    · exact h.known j (List.mem_cons_of_mem _ hj)
  addrs j hj := by
    rcases List.mem_cons.mp hj with rfl | hj
    · exact hphase
    · exact h.addrs j (List.mem_cons_of_mem _ hj)
  fresh j hj m hm x hx hxm := by
    rcases List.mem_cons.mp hj with rfl | hj
    · rw [hn] at hm
      cases hm
      exact hfresh x hx hxm
    · rcases List.mem_append.mp hx with hx | hx
      · exact h.fresh j (List.mem_cons_of_mem _ hj) m hm x hx hxm
      · -- two pieces of work are never of one datagram
        rw [hout x hx, hn] at hxm
        cases hxm
        have hn' : jobStamp ⟨e, phase⟩ = some n := hn
        have hnodup := h.nodup
        rw [List.filterMap_cons_some hn', List.nodup_cons] at hnodup
        exact absurd (List.mem_filterMap.mpr ⟨j, hj, hm⟩) hnodup.1
  copied x hx := by
    rcases List.mem_append.mp hx with hx | hx
    · exact h.copied x hx
    · rw [hout x hx]
      exact h.known ⟨e, phase⟩ (List.mem_cons_self ..)
  once := honce

theorem work_perm {s : Server P} {jobs jobs' : List Job} {j : Job}
    (h : s.jobs = jobs ++ j :: jobs') :
    (work s).Perm (j :: (s.events.queue.map (⟨·, .started⟩) ++ (jobs ++ jobs'))) := by
  rw [work, h, ← List.append_assoc, ← List.append_assoc]
  exact List.perm_middle

theorem mem_work {s : Server P} {jobs jobs' : List Job} {j : Job}
    (h : s.jobs = jobs ++ j :: jobs') : j ∈ work s :=
  (work_perm h).symm.subset (List.mem_cons_self ..)

theorem mem_replace {s : Server P} {jobs jobs' : List Job} {j x : Job}
    (hjobs : s.jobs = jobs ++ j :: jobs') (more : List Job) (hx : x ∈ jobs ++ (more ++ jobs')) :
    x ∈ more ∨ x ∈ s.jobs := by
  rw [hjobs, List.mem_append, List.mem_cons]
  rcases List.mem_append.mp hx with hx | hx
  · exact .inr (.inl hx)
  · rcases List.mem_append.mp hx with hx | hx
    · exact .inl hx
    · exact .inr (.inr (.inr hx))

theorem mem_work_replace {s : Server P} {jobs jobs' : List Job} {j x : Job}
    (hjobs : s.jobs = jobs ++ j :: jobs') (more : List Job)
    (hx : x ∈ s.events.queue.map (Job.mk · .started) ++ (jobs ++ (more ++ jobs'))) :
    x ∈ more ∨ x ∈ work s := by
  rcases List.mem_append.mp hx with hx | hx
  · exact .inr (List.mem_append_left _ hx)
  · rcases mem_replace hjobs more hx with hx | hx
    · exact .inl hx
    · exact .inr (List.mem_append_right _ hx)

/-- Genuine frames for the LAN are numbered. -/
theorem Flow.stamp_of_sendLAN {s : Server P} (hf : Flow s) {e : Posted} (he : e ∈ s.posted)
    {src : SocketAddr} {out : OutPacket} (hev : e.event = .sendLAN src out) :
    ∃ n, e.stamp = some n ∧ s.received[n]? = some ⟨out.data, src⟩ := by
  obtain ⟨t, _, ⟨n, out', hn, hev', _, hr⟩ | ⟨_, hev'⟩⟩ := hf.posted e he
  · rw [hev] at hev'
    cases hev'
    exact ⟨n, hn, hr⟩
  · rw [hev] at hev'
    cases hev'

/-- A step of the event task on the job `e`, which goes on or is done. -/
theorem Delivery.job {s : Server P} (hd : Delivery s.posted s.sent (work s))
    {jobs jobs' : List Job} {e : Posted} {phase : JobPhase}
    (hjobs : s.jobs = jobs ++ ⟨e, phase⟩ :: jobs') :
    Delivery s.posted s.sent (s.events.queue.map (⟨·, .started⟩) ++ (jobs ++ jobs')) ∧
    ∀ phase' out n, (∀ x ∈ out, x.posted = e) → (JobPhase.left phase').Nodup → e.stamp = some n →
      (∀ x ∈ s.sent ++ out, x.posted.stamp = some n →
        ∃ rest, phase' = .sending rest ∧ x.addr ∉ rest) →
      ((s.sent ++ out).map fun x => (x.posted.stamp, x.addr)).Nodup →
      Delivery s.posted (s.sent ++ out)
        (s.events.queue.map (⟨·, .started⟩) ++ (jobs ++ ⟨e, phase'⟩ :: jobs')) := by
  have hfront := hd.of_perm (work_perm hjobs)
  refine ⟨hfront.of_sublist (List.sublist_cons_self _ _), ?_⟩
  intro phase' out n hout hphase hn hfresh honce
  refine (hfront.progress hout hphase hn hfresh honce).of_perm ?_
  rw [← List.append_assoc, ← List.append_assoc]
  exact List.perm_middle.symm

theorem Delivery.onward {s : Server P} (hd : Delivery s.posted s.sent (work s)) (hf : Flow s)
    {jobs jobs' : List Job} {e : Posted} {phase phase' : JobPhase} {src : SocketAddr}
    {out : OutPacket} (hjobs : s.jobs = jobs ++ ⟨e, phase⟩ :: jobs')
    (he : e.event = .sendLAN src out) (hphase : ∀ rest, phase ≠ .sending rest)
    (hleft : (JobPhase.left phase').Nodup) : Delivery s.posted s.sent
      (s.events.queue.map (⟨·, .started⟩) ++ (jobs ++ ⟨e, phase'⟩ :: jobs')) := by
  have hmem := mem_work hjobs
  obtain ⟨n, hn, _⟩ := hf.stamp_of_sendLAN (hd.known _ hmem) he
  have hgo := (hd.job hjobs).2 phase' [] n (by simp) hleft hn
  rw [List.append_nil] at hgo
  refine hgo ?_ hd.once
  intro x hx hxn
  obtain ⟨rest, hrest, _⟩ := hd.fresh _ hmem n hn x hx hxn
  exact absurd hrest (hphase rest)

/-- **Every step keeps the delivery.** -/
theorem Delivery.step {plugin : Plugin P} {s s' : Server P} {l : Label} (hf : Flow s)
    (hd : Delivery s.posted s.sent (work s)) (h : Step plugin s l s') :
    Delivery s'.posted s'.sent (work s') := by
  cases h with
  | @taskSends _ _ _ e events ht hstep hsend =>
    have hq := (Chan.trySend_eq_ok hsend).2.2
    refine (hd.push fun n hn => hf.fresh ht hstep hn).of_perm ?_
    simp only [work, hq, List.map_append, List.map_singleton, List.append_assoc]
    exact List.perm_middle.symm
  | @take e events hrecv hjobs =>
    refine hd.of_perm ?_
    simp only [work, (Chan.recv_eq_some hrecv).1, List.map_cons]
    rw [← List.append_assoc]
    exact (List.perm_append_singleton _ _).symm
  | close hjobs | finish hjobs | drop hjobs => exact (hd.job hjobs).1
  | @route jobs jobs' e src out addrs hjobs he haddrs =>
    refine hd.onward hf hjobs he nofun ?_
    exact haddrs.nodup_iff.mpr (InnerPeerManager.nodup_getDestSockaddr _ _ _)
  | @sendLan jobs jobs' e src out addrs order plugins hjobs he horder hout =>
    exact hd.onward hf hjobs he nofun (hd.addrs _ (mem_work hjobs))
  | @sendTo jobs jobs' e src out addr addrs hjobs he =>
    have hmem := mem_work hjobs
    obtain ⟨n, hn, _⟩ := hf.stamp_of_sendLAN (hd.known _ hmem) he
    have hnodup : (addr :: addrs).Nodup := hd.addrs _ hmem
    have hold : ∀ x ∈ s.sent, x.posted.stamp = some n → x.addr ∉ addr :: addrs := by
      intro x hx hxn
      obtain ⟨rest, hrest, hno⟩ := hd.fresh _ hmem n hn x hx hxn
      cases hrest
      exact hno
    refine (hd.job hjobs).2 (.sending addrs) [⟨e, out.data, addr⟩] n (by simp)
      (List.nodup_cons.mp hnodup).2 hn (fun x hx hxn => ⟨addrs, rfl, ?_⟩) ?_
    · rcases List.mem_append.mp hx with hx | hx
      · exact fun hc => hold x hx hxn (List.mem_cons_of_mem _ hc)
      · rw [List.mem_singleton.mp hx]
        exact (List.nodup_cons.mp hnodup).1
    · rw [List.map_append, List.nodup_append]
      refine ⟨hd.once, List.nodup_singleton _, ?_⟩
      rintro a ha b hb rfl
      obtain ⟨x, hx, hxa⟩ := List.mem_map.mp ha
      rw [List.map_singleton, List.mem_singleton] at hb
      rw [hb, Prod.mk.injEq, hn] at hxa
      exact hold x hx hxa.1 (by rw [hxa.2]; simp)
  | crash => exact hd.of_sublist (List.nil_sublist _)
  | tick | configure | receive | recvFails | filter | filterPanics | discard | pong | dispatch
  | task => exact hd

/-- What goes to `send_lan` and out of it is the data of the events. -/
structure Served (s : Server P) : Prop where
  calls : ∀ c ∈ s.lanCalls, c.posted ∈ s.posted ∧
    ∃ src out, c.posted.event = .sendLAN src out ∧ c.packet = out.data
  copies : ∀ x ∈ s.sent, ∃ src out, x.posted.event = .sendLAN src out ∧ x.packet = out.data
  unique : (s.posted.filterMap Posted.stamp).Nodup

theorem Served.step {plugin : Plugin P} {s s' : Server P} {l : Label} (hv : Served s)
    (hf : Flow s) (hd : Delivery s.posted s.sent (work s)) (h : Step plugin s l s') :
    Served s' := by
  cases h with
  | @taskSends _ _ _ e _ ht hstep hsend =>
    refine ⟨fun c hc => ⟨List.mem_append_left _ (hv.calls c hc).1, (hv.calls c hc).2⟩, hv.copies,
      ?_⟩
    rw [List.filterMap_append, List.nodup_append]
    refine ⟨hv.unique, ?_, ?_⟩
    · cases hn : e.stamp <;> simp [hn]
    · rintro n hn m hm rfl
      obtain ⟨x, hx, hxn⟩ := List.mem_filterMap.mp hn
      obtain ⟨y, hy, hyn⟩ := List.mem_filterMap.mp hm
      rw [List.mem_singleton.mp hy] at hyn
      exact hf.fresh ht hstep hyn x hx hxn
  | @sendLan jobs jobs' e src out addrs order plugins hjobs he horder hout =>
    have hmem := mem_work hjobs
    refine ⟨?_, hv.copies, hv.unique⟩
    intro c hc
    rcases List.mem_append.mp hc with hc | hc
    · exact hv.calls c hc
    · rw [List.mem_singleton.mp hc]
      exact ⟨hd.known _ hmem, src, out, he, rfl⟩
  | sendTo hjobs he =>
    refine ⟨hv.calls, ?_, hv.unique⟩
    intro x hx
    rcases List.mem_append.mp hx with hx | hx
    · exact hv.copies x hx
    · rw [List.mem_singleton.mp hx]
      exact ⟨_, _, he, rfl⟩
  | tick | configure | receive | recvFails | filter | filterPanics | discard | pong | dispatch
  | task | take | close | route | drop | crash | finish =>
    exact ⟨hv.calls, hv.copies, hv.unique⟩

/-! ### The whole way -/

theorem delivery_of_reachable {plugin : Plugin P} {s : Server P} (h : (lts plugin).Reachable s) :
    Delivery s.posted s.sent (work s) ∧ Served s := by
  have hall : Flow s ∧ Delivery s.posted s.sent (work s) ∧ Served s := by
    refine Lts.invariant (p := fun s => Flow s ∧ Delivery s.posted s.sent (work s) ∧ Served s)
      ?_ ?_ h
    · rintro _ ⟨ignoreIdle, plugins, rfl⟩
      refine ⟨flow_new ignoreIdle plugins, ⟨.nil, ?_, ?_, ?_, ?_, .nil⟩, ⟨?_, ?_, .nil⟩⟩
      all_goals exact fun x hx => (nomatch hx)
    · intro s l s' hs hstep
      obtain ⟨hf, hd, hv⟩ := hs
      exact ⟨hf.step hstep, hd.step hf hstep, hv.step hf hd hstep⟩
  exact hall.2

/-- The server relays what it received, each datagram once and in order. -/
structure Integrity (s : Server P) : Prop where
  /-- What `send_lan` is given for an event is a datagram received from the
  client the event names. -/
  genuine : ∀ c ∈ s.lanCalls, ∃ src out, c.posted.event = .sendLAN src out ∧
    c.packet = out.data ∧ ∃ n, c.posted.stamp = some n ∧ s.received[n]? = some ⟨c.packet, src⟩
  /-- Each event is made of a datagram, -/
  numbered : ∀ e ∈ s.posted, ∀ src out, e.event = .sendLAN src out →
    ∃ n, e.stamp = some n ∧ s.received[n]? = some ⟨out.data, src⟩
  /-- and no two of the same. -/
  unique : (s.posted.filterMap Posted.stamp).Nodup
  /-- The copies that go out for an event are its datagram, -/
  copies : ∀ x ∈ s.sent, ∃ src out n, x.posted.event = .sendLAN src out ∧ x.packet = out.data ∧
    x.posted.stamp = some n
  /-- and go to different addresses. -/
  once : (s.sent.map fun x => (x.posted.stamp, x.addr)).Nodup
  /-- The events of one task are in the order in which its datagrams came. -/
  ordered : ∀ i, (stampsOf i s.posted).Pairwise (· < ·)

/-- **Relay integrity.**  In every reachable state the server has relayed only
what it received, each datagram at most once, each copy to a different address,
and the datagrams of one peer in order. -/
theorem relay_integrity {plugin : Plugin P} {s : Server P} (h : (lts plugin).Reachable s) :
    Integrity s := by
  have hf := flow_of_reachable h
  obtain ⟨hd, hv⟩ := delivery_of_reachable h
  refine ⟨?_, fun e he src out hev => hf.stamp_of_sendLAN he hev, hv.unique,
    ?_, hd.once, ?_⟩
  · intro c hc
    obtain ⟨hposted, src, out, hev, hp⟩ := hv.calls c hc
    obtain ⟨n, hn, hr⟩ := hf.stamp_of_sendLAN hposted hev
    exact ⟨src, out, hev, hp, n, hn, by rw [hp]; exact hr⟩
  · intro x hx
    obtain ⟨src, out, hev, hp⟩ := hv.copies x hx
    obtain ⟨n, hn, _⟩ := hf.stamp_of_sendLAN (hd.copied x hx) hev
    exact ⟨src, out, n, hev, hp, hn⟩
  · intro i
    cases ht : s.tasks[i]? with
    | some t => exact (List.pairwise_append.mp (hf.tasks i t ht).ordered).1
    | none =>
      rw [stampsOf_eq_nil]
      · exact .nil
      · intro e he hei
        obtain ⟨t, ht', _⟩ := hf.posted e he
        rw [hei, ht] at ht'
        cases ht'

theorem relay_integrity_relayTurns : Integrity (outcome noPlugin [] relayTurns) ∧
    (outcome noPlugin [] relayTurns).sent.map (fun x => (x.packet, x.addr)) =
      [(lanDatagram, bob)] :=
  ⟨relay_integrity (reachable_outcome noPlugin [] relayTurns), by decide⟩

end Server

end SlpServer
