import SlpServer.Slp.Execution
import SlpServer.Slp.Routing

/-!
# Frames that come back to their sender

A frame without a route is not sent to the client it came from, but a route may
lead there: to a client that uses the destination address itself.
`no_echo_iff` says when, for one call after any history and for the server.
-/

namespace SlpServer

namespace InnerPeerManager

/-- The route of the frame leads back to its sender: the frame is for its own
source, or its destination has a route there. -/
def LeadsBack (m : InnerPeerManager) (src : SocketAddr) (out : OutAddr) : Prop :=
  out.dstIp = out.srcIp ∨ m.map.lookup out.dstIp = some src

instance (m : InnerPeerManager) (src : SocketAddr) (out : OutAddr) :
    Decidable (m.LeadsBack src out) := inferInstanceAs (Decidable (_ ∨ _))

theorem leadsBack_iff {m : InnerPeerManager} {src : SocketAddr} {out : OutAddr} :
    m.LeadsBack src out ↔ (m.getDestSockaddr src out).2.map.lookup out.dstIp = some src := by
  rw [lookup_map_getDestSockaddr, LeadsBack]
  by_cases h : out.dstIp = out.srcIp
  · rw [if_pos h]
    exact iff_of_true (.inl h) rfl
  · rw [if_neg h, or_iff_right h]

/-- A frame goes back to its sender exactly when its route leads there. -/
theorem mem_self_iff {m : InnerPeerManager} {src : SocketAddr} {out : OutAddr} :
    src ∈ (m.getDestSockaddr src out).1 ↔ m.LeadsBack src out := by
  rw [leadsBack_iff]
  cases hl : (m.getDestSockaddr src out).2.map.lookup out.dstIp with
  | none =>
    rw [mem_getDestSockaddr_of_none hl]
    exact iff_of_false (fun h => h.1 rfl) (by simp)
  | some b => rw [getDestSockaddr_of_some hl, List.mem_singleton, Option.some.injEq, eq_comm]

end InnerPeerManager

/-- No destination of the frame is its sender. -/
def Job.Quiet (j : Job) : Prop :=
  ∀ src out, j.posted.event = .sendLAN src out →
    ∀ addrs, j.phase = .routed addrs ∨ j.phase = .sending addrs → src ∉ addrs

theorem Job.quiet_started (e : Posted) : Job.Quiet ⟨e, .started⟩ := by
  rintro src out _ addrs (h | h) <;> cases h

namespace Server

variable {P : Type}

/-- No frame has been sent back to the client it came from. -/
def NoEcho (s : Server P) : Prop :=
  ∀ x ∈ s.sent, ∀ src out, x.posted.event = .sendLAN src out → x.addr ≠ src

/-- The step is the one in which a job routes this frame. -/
def Routes (s s' : Server P) (src : SocketAddr) (out : OutPacket) : Prop :=
  ∃ jobs jobs' e addrs, s.jobs = jobs ++ ⟨e, .started⟩ :: jobs' ∧
    s'.jobs = jobs ++ ⟨e, .routed addrs⟩ :: jobs' ∧ e.event = .sendLAN src out

/-- A frame that is routed does not lead back to its sender. -/
def EchoGuard (s s' : Server P) : Prop :=
  ∀ src out, Routes s s' src out → ¬ s.manager.LeadsBack src out.addr

/-- Nothing at work will be sent back, and nothing has been. -/
def Quiet (s : Server P) : Prop := (∀ j ∈ s.jobs, Job.Quiet j) ∧ s.NoEcho

theorem quiet_append {jobs jobs' : List Job} {j : Job}
    (h : ∀ k ∈ jobs ++ j :: jobs', Job.Quiet k) : ∀ k ∈ jobs ++ jobs', Job.Quiet k := by
  intro k hk
  apply h
  rcases List.mem_append.mp hk with hk | hk
  · exact List.mem_append_left _ hk
  · exact List.mem_append_right _ (List.mem_cons_of_mem _ hk)

theorem quiet_replace {jobs jobs' : List Job} {j j' : Job}
    (h : ∀ k ∈ jobs ++ j :: jobs', Job.Quiet k) (hj : Job.Quiet j → Job.Quiet j') :
    ∀ k ∈ jobs ++ j' :: jobs', Job.Quiet k := by
  intro k hk
  rcases List.mem_append.mp hk with hk | hk
  · exact h k (List.mem_append_left _ hk)
  · rcases List.mem_cons.mp hk with rfl | hk
    · exact hj (h j (by simp))
    · exact h k (List.mem_append_right _ (List.mem_cons_of_mem _ hk))

/-- **One step of the guarded server keeps it quiet.** -/
theorem Quiet.step {plugin : Plugin P} {s s' : Server P} {l : Label} (h : s.Quiet)
    (hg : s.EchoGuard s') (hs : Step plugin s l s') : s'.Quiet := by
  obtain ⟨hjobs, hsent⟩ := h
  cases hs with
  | tick | configure | receive | recvFails | filter | filterPanics | discard | pong | dispatch
  | task | taskSends => exact ⟨hjobs, hsent⟩
  | take hrecv hfew =>
    refine ⟨?_, hsent⟩
    intro j hj
    rcases List.mem_append.mp hj with hj | hj
    · exact hjobs j hj
    · rw [List.mem_singleton.mp hj]
      exact Job.quiet_started _
  | close hj he | drop hj he | finish hj he =>
    rw [hj] at hjobs
    exact ⟨quiet_append hjobs, hsent⟩
  | crash plugins hj he =>
    refine ⟨?_, hsent⟩
    intro j hj
    cases hj
  | @route jobs jobs' e src out addrs hj he haddrs =>
    have hback := hg src out ⟨jobs, jobs', e, addrs, hj, rfl, he⟩
    rw [hj] at hjobs
    refine ⟨quiet_replace hjobs fun _ => ?_, hsent⟩
    intro src' out' he' addrs' ha
    rw [he] at he'
    cases he'
    rcases ha with ha | ha
    · cases ha
      intro hm
      exact hback (InnerPeerManager.mem_self_iff.mp (haddrs.subset hm))
    · cases ha
  | @sendLan jobs jobs' e src out addrs order plugins hj he =>
    rw [hj] at hjobs
    refine ⟨quiet_replace hjobs fun hquiet => ?_, hsent⟩
    intro src' out' he' addrs' ha
    rcases ha with ha | ha
    · cases ha
    · cases ha
      exact hquiet src' out' he' addrs (.inl rfl)
  | @sendTo jobs jobs' e src out addr addrs hj he =>
    have hquiet : Job.Quiet ⟨e, .sending (addr :: addrs)⟩ := hjobs _ (by rw [hj]; simp)
    rw [hj] at hjobs
    refine ⟨quiet_replace hjobs fun _ => ?_, ?_⟩
    · intro src' out' he' addrs' ha hm
      rcases ha with ha | ha
      · cases ha
      · cases ha
        exact hquiet src' out' he' _ (.inr rfl) (List.mem_cons_of_mem _ hm)
    · intro x hx src' out' he'
      rcases List.mem_append.mp hx with hx | hx
      · exact hsent x hx src' out' he'
      · rw [List.mem_singleton.mp hx] at he' ⊢
        rintro rfl
        exact hquiet _ out' he' _ (.inr rfl) (List.mem_cons_self ..)

theorem quiet_new (ignoreIdle : Bool) (plugins : List P) : (new ignoreIdle plugins).Quiet := by
  constructor
  · intro j hj
    cases hj
  · intro x hx
    cases hx

/-- **When no frame comes back to its sender**: one call after any history
returns its sender exactly when the latest frame from the destination, the
frame itself included, came from that client; and a server that routes no such
frame sends none back. -/
theorem no_echo_iff (plugin : Plugin P) :
    (∀ (ignoreIdle : Bool) (cs : List InnerPeerManager.Call) (src : SocketAddr) (out : OutAddr),
      src ∉ ((InnerPeerManager.after ignoreIdle cs).getDestSockaddr src out).1 ↔
        InnerPeerManager.lastSender (cs ++ [.getDestSockaddr src out]) out.dstIp ≠ some src) ∧
    ∀ (ignoreIdle : Bool) (plugins : List P) (r : List (Label × Server P)),
      (lts plugin).Run (new ignoreIdle plugins) r →
      Lts.Between EchoGuard (new ignoreIdle plugins) r →
        Lts.Always NoEcho (new ignoreIdle plugins) r := by
  constructor
  · intro ignoreIdle cs src out
    rw [InnerPeerManager.mem_self_iff, InnerPeerManager.leadsBack_iff,
      InnerPeerManager.lookup_map_call]
  · intro ignoreIdle plugins r hr hg
    have hquiet : Lts.Always Quiet (new ignoreIdle plugins) r :=
      Lts.Between.always (fun _ _ _ hs hg hstep => hs.step hg hstep)
        (quiet_new ignoreIdle plugins) hr hg
    exact hquiet.imp fun s h => h.2

/-- The frame of a job leads back to its sender. -/
def leadsBack (m : InnerPeerManager) (j : Job) : Bool :=
  match j.posted.event with
  | .sendLAN src out => m.LeadsBack src out.addr
  | .close _ => false

/-- Whichever job goes on, its frame does not lead back. -/
def Clear (s : Server P) (_ : Label) : Prop := ∀ j ∈ s.jobs, leadsBack s.manager j = false

instance (s : Server P) (l : Label) : Decidable (s.Clear l) :=
  inferInstanceAs (Decidable (∀ j ∈ s.jobs, _ = false))

theorem echoGuard_of_clear {s s' : Server P} {l : Label} (h : s.Clear l) : s.EchoGuard s' := by
  rintro src out ⟨jobs, jobs', e, addrs, hj, _, he⟩
  have hclear := h ⟨e, .started⟩ (by rw [hj]; simp)
  rw [leadsBack, he] at hclear
  exact of_decide_eq_false hclear

theorem echoGuard_relayTurns :
    Lts.Between EchoGuard (new false []) (trace noPlugin [] relayTurns) := by
  have hclear : Lts.Guarded Clear (new false []) (trace noPlugin [] relayTurns) := by decide
  refine Lts.Guarded.between ?_ hclear
  intro s l s' h
  exact echoGuard_of_clear h

theorem no_echo_relayTurns :
    Lts.Always NoEcho (new false []) (trace noPlugin [] relayTurns) :=
  (no_echo_iff noPlugin).2 false [] _ (run_trace noPlugin [] relayTurns) echoGuard_relayTurns

/-- A client that sends from two addresses gets what it sends to itself. -/
theorem echoes_own_frame : ¬ ∀ (ignoreIdle : Bool) (cs : List InnerPeerManager.Call)
    (src : SocketAddr) (out : OutAddr),
    src ∉ ((InnerPeerManager.after ignoreIdle cs).getDestSockaddr src out).1 := by
  intro h
  have hfirst := h false [.peerMut InnerPeerManager.passerBy (.new 0 0) id,
    .getDestSockaddr InnerPeerManager.passerBy ⟨⟨10, 13, 37, 1⟩, ⟨10, 13, 37, 9⟩⟩]
    InnerPeerManager.passerBy ⟨⟨10, 13, 37, 2⟩, ⟨10, 13, 37, 1⟩⟩
  exact hfirst (List.mem_singleton.mpr rfl)

end Server

end SlpServer
