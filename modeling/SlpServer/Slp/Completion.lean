import SlpServer.Slp.Quiescence

/-!
# Every event is served

What becomes of an event once a peer task has sent it.  As long as the event
task is there and no plugin refuses a packet that goes out, the event is at work
or was handed to `send_lan`, once; of such a call the copies that went out,
followed by those still to come, are one for each of its addresses, in order
(`Complete`).  So at rest all have gone out.
-/

namespace SlpServer

open Rust PeerTask

/-- The event is not in `send_lan` yet. -/
def Job.Ahead (j : Job) : Prop := ∀ rest, j.phase ≠ .sending rest

theorem Job.ahead_started (e : Posted) : Job.Ahead ⟨e, .started⟩ := by
  intro rest h
  cases h

theorem Job.ahead_routed (e : Posted) (addrs : List SocketAddr) : Job.Ahead ⟨e, .routed addrs⟩ := by
  intro rest h
  cases h

namespace Server

variable {P : Type}

/-- No plugin refuses a packet that goes out. -/
def Passing (plugin : Plugin P) : Prop :=
  ∀ packet addrs ps refused ps',
    outPackets plugin packet addrs ps = .ok (refused, ps') → refused = false

/-- Where the copies of an event went, in order. -/
def copiesOf (sent : List Sent) (e : Posted) : List SocketAddr :=
  (sent.filter fun x => x.posted = e).map Sent.addr

/-- The addresses `rest` are those a call of `send_lan` has not come to. -/
def Leaves (jobs : List Job) (e : Posted) (rest : List SocketAddr) : Prop :=
  ⟨e, .sending rest⟩ ∈ jobs ∨ (rest = [] ∧ ∀ j ∈ jobs, j.posted ≠ e)

structure Complete (posted : List Posted) (calls : List LanCall) (sent : List Sent)
    (jobs : List Job) : Prop where
  /-- A frame is at work or in a call, -/
  served : ∀ e ∈ posted, ∀ src out, e.event = .sendLAN src out →
    (∃ j ∈ jobs, j.posted = e ∧ j.Ahead) ∨ ∃ c ∈ calls, c.posted = e
  /-- not both, -/
  ahead : ∀ j ∈ jobs, j.Ahead → ∀ c ∈ calls, c.posted ≠ j.posted
  /-- and in one call only. -/
  once : (calls.map LanCall.posted).Nodup
  /-- A call sends to each of its addresses, in order. -/
  copies : ∀ c ∈ calls, ∃ rest, Leaves jobs c.posted rest ∧
    copiesOf sent c.posted ++ rest = c.addrs

theorem copiesOf_concat (sent : List Sent) (x : Sent) (e : Posted) :
    copiesOf (sent ++ [x]) e = copiesOf sent e ++ if x.posted = e then [x.addr] else [] := by
  unfold copiesOf
  rw [List.filter_append, List.map_append]
  split
  · rename_i hx
    simp [hx]
  · rename_i hx
    simp [hx]

/-! ### What becomes of one event -/

section
variable {posted : List Posted} {calls : List LanCall} {sent : List Sent} {jobs jobs' : List Job}
  {e : Posted} {phase : JobPhase}

theorem Leaves.of_perm {rest : List SocketAddr} (h : Leaves jobs e rest) (hp : jobs.Perm jobs') :
    Leaves jobs' e rest := by
  rcases h with h | ⟨hrest, h⟩
  · exact .inl (hp.subset h)
  · exact .inr ⟨hrest, fun j hj => h j (hp.symm.subset hj)⟩

theorem Complete.of_perm (h : Complete posted calls sent jobs) (hp : jobs.Perm jobs') :
    Complete posted calls sent jobs' where
  served x hx src out he := by
    rcases h.served x hx src out he with ⟨j, hj, hjx⟩ | hc
    · exact .inl ⟨j, hp.subset hj, hjx⟩
    · exact .inr hc
  ahead j hj := h.ahead j (hp.symm.subset hj)
  once := h.once
  copies c hc := by
    obtain ⟨rest, hrest, haddrs⟩ := h.copies c hc
    exact ⟨rest, hrest.of_perm hp, haddrs⟩

theorem Leaves.other {rest : List SocketAddr} {x : Posted} (hne : x ≠ e)
    (hjobs : ∀ j ∈ jobs', j.posted = e) :
    Leaves (jobs' ++ jobs) x rest ↔ Leaves jobs x rest := by
  have hold : ∀ j ∈ jobs', j.posted ≠ x := by
    intro j hj hx
    exact hne (hx.symm.trans (hjobs j hj))
  constructor
  · rintro (h | ⟨hrest, h⟩)
    · rcases List.mem_append.mp h with h | h
      · exact absurd rfl (hold _ h)
      · exact .inl h
    · exact .inr ⟨hrest, fun j hj => h j (List.mem_append_right _ hj)⟩
  · rintro (h | ⟨hrest, h⟩)
    · exact .inl (List.mem_append_right _ h)
    · refine .inr ⟨hrest, fun j hj => ?_⟩
      rcases List.mem_append.mp hj with hj | hj
      · exact hold j hj
      · exact h j hj

theorem Complete.push (h : Complete posted calls sent jobs) (hcalls : ∀ c ∈ calls, c.posted ≠ e) :
    Complete (posted ++ [e]) calls sent (⟨e, .started⟩ :: jobs) where
  served x hx src out he := by
    rcases List.mem_append.mp hx with hx | hx
    · rcases h.served x hx src out he with ⟨j, hj, hjx⟩ | hc
      · exact .inl ⟨j, List.mem_cons_of_mem _ hj, hjx⟩
      · exact .inr hc
    · rw [List.mem_singleton.mp hx]
      exact .inl ⟨_, List.mem_cons_self .., rfl, nofun⟩
  ahead j hj hahead := by
    rcases List.mem_cons.mp hj with rfl | hj
    · exact hcalls
    · exact h.ahead j hj hahead
  once := h.once
  copies c hc := by
    obtain ⟨rest, hrest, haddrs⟩ := h.copies c hc
    refine ⟨rest, ?_, haddrs⟩
    rw [← List.singleton_append, Leaves.other (hcalls c hc) (by simp)]
    exact hrest

theorem Complete.advance (h : Complete posted calls sent (⟨e, phase⟩ :: jobs))
    (hphase : Job.Ahead ⟨e, phase⟩) (phase' : JobPhase) (hphase' : Job.Ahead ⟨e, phase'⟩) :
    Complete posted calls sent (⟨e, phase'⟩ :: jobs) where
  served x hx src out he := by
    rcases h.served x hx src out he with ⟨j, hj, hjx, hahead⟩ | hc
    · rcases List.mem_cons.mp hj with rfl | hj
      · exact .inl ⟨⟨e, phase'⟩, List.mem_cons_self .., hjx, hphase'⟩
      · exact .inl ⟨j, List.mem_cons_of_mem _ hj, hjx, hahead⟩
    · exact .inr hc
  ahead j hj hahead := by
    rcases List.mem_cons.mp hj with rfl | hj
    · exact h.ahead ⟨e, phase⟩ (List.mem_cons_self ..) hphase
    · exact h.ahead j (List.mem_cons_of_mem _ hj) hahead
  once := h.once
  copies c hc := by
    obtain ⟨rest, hrest, haddrs⟩ := h.copies c hc
    have hne := h.ahead ⟨e, phase⟩ (List.mem_cons_self ..) hphase c hc
    refine ⟨rest, ?_, haddrs⟩
    rw [← List.singleton_append, Leaves.other hne (by simp)] at hrest ⊢
    exact hrest

theorem Complete.call (h : Complete posted calls sent (⟨e, phase⟩ :: jobs))
    (hphase : Job.Ahead ⟨e, phase⟩) (hnone : copiesOf sent e = [])
    (hjobs : ∀ j ∈ jobs, j.posted ≠ e) (packet : Packet) (addrs : List SocketAddr) :
    Complete posted (calls ++ [⟨e, packet, addrs⟩]) sent (⟨e, .sending addrs⟩ :: jobs) where
  served x hx src out he := by
    rcases h.served x hx src out he with ⟨j, hj, hjx, hahead⟩ | ⟨c, hc, hcx⟩
    · rcases List.mem_cons.mp hj with rfl | hj
      · exact .inr ⟨_, List.mem_append_right _ (List.mem_singleton_self _), hjx⟩
      · exact .inl ⟨j, List.mem_cons_of_mem _ hj, hjx, hahead⟩
    · exact .inr ⟨c, List.mem_append_left _ hc, hcx⟩
  ahead j hj hahead c hc := by
    rcases List.mem_cons.mp hj with rfl | hj
    · exact absurd rfl (hahead addrs)
    · rcases List.mem_append.mp hc with hc | hc
      · exact h.ahead j (List.mem_cons_of_mem _ hj) hahead c hc
      · rw [List.mem_singleton.mp hc]
        exact Ne.symm (hjobs j hj)
  once := by
    rw [List.map_append, List.nodup_append]
    refine ⟨h.once, List.nodup_singleton _, ?_⟩
    rintro x hx y hy rfl
    obtain ⟨c, hc, hcx⟩ := List.mem_map.mp hx
    rw [List.map_singleton, List.mem_singleton] at hy
    exact h.ahead ⟨e, phase⟩ (List.mem_cons_self ..) hphase c hc (hcx.trans hy)
  copies c hc := by
    rcases List.mem_append.mp hc with hc | hc
    · obtain ⟨rest, hrest, haddrs⟩ := h.copies c hc
      have hne := h.ahead ⟨e, phase⟩ (List.mem_cons_self ..) hphase c hc
      refine ⟨rest, ?_, haddrs⟩
      rw [← List.singleton_append, Leaves.other hne (by simp)] at hrest ⊢
      exact hrest
    · rw [List.mem_singleton.mp hc]
      exact ⟨addrs, .inl (List.mem_cons_self ..), by rw [hnone, List.nil_append]⟩

/-- What an event in `send_lan` leaves is what its job says. -/
theorem Leaves.eq_of_mem {rest addrs : List SocketAddr} (hjobs : ∀ j ∈ jobs, j.posted ≠ e)
    (h : Leaves (⟨e, .sending addrs⟩ :: jobs) e rest) : rest = addrs := by
  rcases h with h | ⟨_, h⟩
  · rcases List.mem_cons.mp h with h | h
    · cases h
      rfl
    · exact absurd rfl (hjobs _ h)
  · exact absurd rfl (h _ (List.mem_cons_self ..))

theorem Complete.copy {addr : SocketAddr} {addrs : List SocketAddr}
    (h : Complete posted calls sent (⟨e, .sending (addr :: addrs)⟩ :: jobs))
    (hjobs : ∀ j ∈ jobs, j.posted ≠ e) (packet : Packet) :
    Complete posted calls (sent ++ [⟨e, packet, addr⟩]) (⟨e, .sending addrs⟩ :: jobs) where
  served x hx src out he := by
    rcases h.served x hx src out he with ⟨j, hj, hjx, hahead⟩ | hc
    · rcases List.mem_cons.mp hj with rfl | hj
      · exact absurd rfl (hahead (addr :: addrs))
      · exact .inl ⟨j, List.mem_cons_of_mem _ hj, hjx, hahead⟩
    · exact .inr hc
  ahead j hj hahead := by
    rcases List.mem_cons.mp hj with rfl | hj
    · exact absurd rfl (hahead addrs)
    · exact h.ahead j (List.mem_cons_of_mem _ hj) hahead
  once := h.once
  copies c hc := by
    obtain ⟨rest, hrest, haddrs⟩ := h.copies c hc
    by_cases hce : c.posted = e
    · rw [hce] at hrest haddrs ⊢
      rw [Leaves.eq_of_mem hjobs hrest] at haddrs
      refine ⟨addrs, .inl (List.mem_cons_self ..), ?_⟩
      rw [copiesOf_concat, if_pos rfl, List.append_assoc, List.singleton_append, haddrs]
    · refine ⟨rest, ?_, ?_⟩
      · rw [← List.singleton_append, Leaves.other hce (by simp)] at hrest ⊢
        exact hrest
      · rw [copiesOf_concat, if_neg (Ne.symm hce), List.append_nil]
        exact haddrs

theorem Complete.done (h : Complete posted calls sent (⟨e, phase⟩ :: jobs))
    (hphase : phase = .sending [] ∨ (Job.Ahead ⟨e, phase⟩ ∧ ∃ addr, e.event = .close addr))
    (hjobs : ∀ c ∈ calls, c.posted = e → ∀ j ∈ jobs, j.posted ≠ e) :
    Complete posted calls sent jobs where
  served x hx src out he := by
    rcases h.served x hx src out he with ⟨j, hj, hjx, hahead⟩ | hc
    · rcases List.mem_cons.mp hj with rfl | hj
      · rcases hphase with rfl | ⟨_, addr, hclose⟩
        · exact absurd rfl (hahead [])
        · have hjx' : e = x := hjx
          rw [hjx', he] at hclose
          cases hclose
      · exact .inl ⟨j, hj, hjx, hahead⟩
    · exact .inr hc
  ahead j hj := h.ahead j (List.mem_cons_of_mem _ hj)
  once := h.once
  copies c hc := by
    obtain ⟨rest, hrest, haddrs⟩ := h.copies c hc
    by_cases hce : c.posted = e
    · rcases hphase with rfl | ⟨hahead, _⟩
      · have hjobs := hjobs c hc hce
        rw [hce] at hrest haddrs ⊢
        rw [Leaves.eq_of_mem hjobs hrest] at haddrs
        exact ⟨[], .inr ⟨rfl, hjobs⟩, haddrs⟩
      · exact absurd hce (h.ahead ⟨e, phase⟩ (List.mem_cons_self ..) hahead c hc)
    · refine ⟨rest, ?_, haddrs⟩
      rw [← List.singleton_append, Leaves.other hce (by simp)] at hrest
      exact hrest

end

/-! ### Steps -/

/-- No other job is about the same frame. -/
theorem Delivery.alone {posted : List Posted} {sent : List Sent} {e : Posted} {phase : JobPhase}
    {jobs : List Job} (h : Delivery posted sent (⟨e, phase⟩ :: jobs)) {n : Nat}
    (hn : e.stamp = some n) : ∀ j ∈ jobs, j.posted ≠ e := by
  intro j hj hje
  exact h.stamp_ne hn j hj (by rw [hje, hn])

/-- A frame that is not in `send_lan` has gone nowhere. -/
theorem Delivery.copiesOf_eq_nil {posted : List Posted} {sent : List Sent} {e : Posted}
    {phase : JobPhase} {jobs : List Job} (h : Delivery posted sent (⟨e, phase⟩ :: jobs))
    (hphase : Job.Ahead ⟨e, phase⟩) {n : Nat} (hn : e.stamp = some n) : copiesOf sent e = [] := by
  rw [copiesOf, List.filter_eq_nil_iff.mpr, List.map_nil]
  intro x hx hxe
  have hxe := of_decide_eq_true hxe
  obtain ⟨rest, hrest, _⟩ := h.fresh ⟨e, phase⟩ (List.mem_cons_self ..) n hn x hx (by rw [hxe, hn])
  exact hphase rest hrest

theorem Complete.job {s : Server P}
    (h : Complete s.posted s.lanCalls s.sent (work s)) {jobs jobs' : List Job} {j : Job}
    (hjobs : s.jobs = jobs ++ j :: jobs') :
    ∃ others, (work s).Perm (j :: others) ∧ Complete s.posted s.lanCalls s.sent (j :: others) ∧
      s.events.queue.map (Job.mk · .started) ++ (jobs ++ jobs') = others ∧
      ∀ j', (j' :: others).Perm
        (s.events.queue.map (Job.mk · .started) ++ (jobs ++ j' :: jobs')) := by
  refine ⟨_, work_perm hjobs, h.of_perm (work_perm hjobs), rfl, fun j' => ?_⟩
  rw [← List.append_assoc, ← List.append_assoc]
  exact List.perm_middle.symm

/-- What is with `send_lan` is a frame, so a `Close` is not. -/
theorem Served.not_close {s : Server P} (hv : Served s) {e : Posted} {addr : SocketAddr}
    (he : e.event = .close addr) : ∀ c ∈ s.lanCalls, c.posted ≠ e := by
  rintro c hc rfl
  obtain ⟨_, src, out, hev, _⟩ := hv.calls c hc
  rw [he] at hev
  cases hev

theorem Complete.step {plugin : Plugin P} (hpass : Passing plugin) {s s' : Server P} {l : Label}
    (hr : (lts plugin).Reachable s)
    (hc : s.events.closed = false → Complete s.posted s.lanCalls s.sent (work s))
    (h : Step plugin s l s') :
    s'.events.closed = false → Complete s'.posted s'.lanCalls s'.sent (work s') := by
  have hf := flow_of_reachable hr
  obtain ⟨hd, hv⟩ := delivery_of_reachable hr
  intro hopen
  cases h with
  | @taskSends i t t' e events ht hstep hsend =>
    obtain ⟨hbefore, _, hq⟩ := Chan.trySend_eq_ok hsend
    have hcalls : ∀ c ∈ s.lanCalls, c.posted ≠ e := by
      obtain rfl | ⟨d, out, _, rfl, _⟩ := hstep.sends_cases
      · exact hv.not_close rfl
      · intro c hcall hce
        refine hf.fresh ht hstep rfl c.posted (hv.calls c hcall).1 ?_
        rw [hce]
    refine ((hc hbefore).push hcalls).of_perm ?_
    simp only [work, hq, List.map_append, List.map_singleton, List.append_assoc]
    exact List.perm_middle.symm
  | @take e events hrecv hjobs =>
    have hq := Chan.recv_eq_some hrecv
    refine (hc (hq.2 ▸ hopen)).of_perm ?_
    simp only [work, hq.1, List.map_cons]
    rw [← List.append_assoc]
    exact (List.perm_append_singleton _ _).symm
  | @close jobs jobs' e addr hjobs he =>
    obtain ⟨others, _, hfront, hrest, _⟩ := (hc hopen).job hjobs
    have hno := hv.not_close he
    simp only [work, hrest]
    refine hfront.done (.inr ⟨Job.ahead_started e, addr, he⟩) ?_
    intro c hcall hce
    exact absurd hce (hno c hcall)
  | @route jobs jobs' e src out addrs hjobs he haddrs =>
    obtain ⟨others, _, hfront, _, hback⟩ := (hc hopen).job hjobs
    have hahead := Job.ahead_routed e addrs
    exact (hfront.advance (Job.ahead_started e) (.routed addrs) hahead).of_perm (hback _)
  | @sendLan jobs jobs' e src out addrs order plugins hjobs he horder hout =>
    obtain ⟨others, hperm, hfront, _, hback⟩ := (hc hopen).job hjobs
    have hdel := hd.of_perm hperm
    obtain ⟨n, hn, _⟩ := hf.stamp_of_sendLAN (hd.known _ (mem_work hjobs)) he
    have hahead := Job.ahead_routed e addrs
    have hnone := hdel.copiesOf_eq_nil hahead hn
    exact (hfront.call hahead hnone (hdel.alone hn) _ _).of_perm (hback _)
  | drop hjobs he horder hout => cases hpass _ _ _ _ _ hout
  | crash => cases hopen
  | @sendTo jobs jobs' e src out addr addrs hjobs he =>
    obtain ⟨others, hperm, hfront, _, hback⟩ := (hc hopen).job hjobs
    obtain ⟨n, hn, _⟩ := hf.stamp_of_sendLAN (hd.known _ (mem_work hjobs)) he
    exact (hfront.copy ((hd.of_perm hperm).alone hn) _).of_perm (hback _)
  | @finish jobs jobs' e src out hjobs he =>
    obtain ⟨others, hperm, hfront, hrest, _⟩ := (hc hopen).job hjobs
    obtain ⟨n, hn, _⟩ := hf.stamp_of_sendLAN (hd.known _ (mem_work hjobs)) he
    simp only [work, hrest]
    exact hfront.done (.inl rfl) fun _ _ _ => (hd.of_perm hperm).alone hn
  | tick | configure | receive | recvFails | filter | filterPanics | discard | pong | dispatch
  | task => exact hc hopen

theorem complete_of_reachable {plugin : Plugin P} (hpass : Passing plugin) {s : Server P}
    (h : (lts plugin).Reachable s) (hopen : s.events.closed = false) :
    Complete s.posted s.lanCalls s.sent (work s) := by
  have hall : (lts plugin).Reachable s ∧
      (s.events.closed = false → Complete s.posted s.lanCalls s.sent (work s)) := by
    refine Lts.invariant (p := fun s => (lts plugin).Reachable s ∧
        (s.events.closed = false → Complete s.posted s.lanCalls s.sent (work s))) ?_
      (fun s l s' hs hstep => ⟨hs.1.step hstep, Complete.step hpass hs.1 hs.2 hstep⟩) h
    rintro s ⟨ignoreIdle, plugins, rfl⟩
    refine ⟨.init ⟨ignoreIdle, plugins, rfl⟩, fun _ => ⟨?_, ?_, .nil, ?_⟩⟩
    all_goals exact fun _ hx => (nomatch hx)
  exact hall.2 hopen

end Server

end SlpServer
