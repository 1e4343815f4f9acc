import SlpServer.Slp.Online
import SlpServer.Slp.Quiescence
import Mathlib.Data.List.FinRange
import Mathlib.Tactic.Ring

/-!
# How much there is to do

The channels of the server are bounded, and a client has one task, whatever its
past: the tasks that have not ended are those of the clients in the table, and
the others have nothing (`countP_live_le`).  So with `n` clients in the table
what the server holds is linear in `n` (`inFlight_le`), and the work it has
quadratic (`settles_within`), since a frame may go to all of them.
-/

namespace SlpServer

open Rust PeerTask

theorem sum_le_countP_mul {α : Type} {f : α → Nat} {live : α → Bool} {b : Nat} {xs : List α}
    (hlive : ∀ x ∈ xs, f x ≤ b) (hdead : ∀ x ∈ xs, live x = false → f x = 0) :
    (xs.map f).sum ≤ xs.countP live * b := by
  induction xs with
  | nil => exact Nat.zero_le _
  | cons x xs ih =>
    have ih := ih (fun y hy => hlive y (List.mem_cons_of_mem _ hy))
      (fun y hy => hdead y (List.mem_cons_of_mem _ hy))
    have hx := hlive x List.mem_cons_self
    rw [List.map_cons, List.sum_cons, List.countP_cons]
    cases hl : live x with
    | false =>
      rw [hdead x List.mem_cons_self hl]
      simpa using ih
    | true =>
      rw [if_pos rfl, Nat.succ_mul]
      omega

theorem countP_eq_length_finRange {α : Type} (p : α → Bool) (xs : List α) :
    xs.countP p = ((List.finRange xs.length).filter fun i => p xs[i]).length := by
  rw [← List.countP_eq_length_filter]
  conv_lhs => rw [← List.map_get_finRange xs, List.countP_map]
  rfl

namespace Server

variable {P : Type} {plugin : Plugin P} {s : Server P}

/-! ### The tasks of the clients -/

/-- There are no more tasks than clients, but for those that have ended. -/
theorem countP_live_le (h : (lts plugin).Reachable s) (hopen : s.events.closed = false) :
    s.tasks.countP (fun t => !t.ended) ≤ s.manager.cache.entries.length := by
  have hf := flow_of_reachable h
  have hl := lives_of_reachable h hopen
  have hnodup : (((List.finRange s.tasks.length).filter fun i => !s.tasks[i].ended).map
      Fin.val).Nodup :=
    ((List.nodup_finRange _).filter _).map Fin.val_injective
  have hlen : (s.manager.cache.entries.map fun e => e.2.sender).length =
      s.manager.cache.entries.length := List.length_map _
  rw [countP_eq_length_finRange, ← List.length_map Fin.val, ← hlen]
  refine (hnodup.subperm fun i hi => ?_).length_le
  obtain ⟨j, hj, rfl⟩ := List.mem_map.mp hi
  have hrun : s.tasks[j].ended = false := by simpa using (List.mem_filter.mp hj).2
  have ht : s.tasks[j.val]? = some s.tasks[j] := List.getElem?_eq_getElem j.isLt
  obtain ⟨p, hp, hsender⟩ := (hl.unsettled_iff hf s.tasks[j].addr j.val).mp
    ⟨_, ht, rfl, .inl hrun⟩
  exact List.mem_map.mpr ⟨⟨s.tasks[j].addr, p⟩, AList.mem_lookup_iff.mp hp, hsender⟩

theorem length_jobs_le (h : (lts plugin).Reachable s) : s.jobs.length ≤ 4 := by
  refine Lts.invariant (p := fun s => s.jobs.length ≤ 4) ?_ ?_ h
  · rintro _ ⟨ignoreIdle, plugins, rfl⟩
    exact Nat.zero_le _
  · intro s l s' hle hs
    cases hs with
    | take hrecv hjobs =>
      rw [List.length_append]
      exact hjobs
    | close hjobs | route hjobs | sendLan hjobs | drop hjobs | sendTo hjobs | finish hjobs =>
      rw [hjobs] at hle
      simp only [List.length_append, List.length_cons] at hle ⊢
      omega
    | crash => exact Nat.zero_le _
    | tick | configure | receive | recvFails | filter | filterPanics | discard | pong | dispatch
    | task | taskSends => exact hle

theorem Sound.ended (h : Sound s) {t : PeerTask} (ht : t ∈ s.tasks) (hended : t.ended = true) :
    t.phase = .done ∧ t.rx.queue = [] := by
  have hdone : t.phase = .done := by
    unfold PeerTask.ended at hended
    split at hended
    · assumption
    · cases hended
  exact ⟨hdone, (h.tasks t ht (.inr hdone)).1⟩

/-! ### What the server holds -/

/-- The datagrams and events that the server holds: in the hand of the receive
loop, with the tasks, in the event channel, and at work. -/
def inFlight (s : Server P) : Nat :=
  s.recv.held.toList.length + (s.tasks.map fun t => t.pipeline.length).sum +
    s.events.queue.length + s.jobs.length

theorem length_pipeline_le (t : PeerTask) : t.pipeline.length ≤ 11 := by
  have hbounded := t.rx.bounded
  have hhand : (inHand t.phase).toList.length ≤ 1 := by cases inHand t.phase <;> simp
  rw [PeerTask.pipeline, List.length_append]
  omega

/-- **The server holds no more than its clients warrant**: eleven datagrams for
each client in the table, and what the event channel and the event task have
room for. -/
theorem inFlight_le (h : (lts plugin).Reachable s) (hopen : s.events.closed = false) :
    s.inFlight ≤ 11 * s.manager.cache.entries.length + 105 := by
  have hsound := sound_of_reachable h
  have htasks : (s.tasks.map fun t => t.pipeline.length).sum ≤
      s.tasks.countP (fun t => !t.ended) * 11 := by
    refine sum_le_countP_mul (fun t _ => length_pipeline_le t) fun t ht hlive => ?_
    obtain ⟨hdone, hqueue⟩ := hsound.ended ht (by simpa using hlive)
    simp [PeerTask.pipeline, inHand, hdone, hqueue]
  have hlive := countP_live_le h hopen
  have hjobs := length_jobs_le h
  have hevents := s.events.bounded
  have hheld : s.recv.held.toList.length ≤ 1 := by cases s.recv.held <;> simp
  unfold inFlight
  omega

theorem inFlight_le_relayTurns :
    (outcome noPlugin [] relayTurns).inFlight ≤ 11 * 2 + 105 :=
  inFlight_le (reachable_outcome noPlugin [] relayTurns) rfl

/-! ### How long it works -/

/-- The copies that the events at work are still to be sent in. -/
def copiesLeft (s : Server P) : Nat :=
  (s.jobs.map fun j => match j.phase with
    | .started => 0
    | .routed addrs | .sending addrs => addrs.length).sum

theorem sum_jobWork_le (n : Nat) (s : Server P) :
    (s.jobs.map fun j => jobWork n j.phase).sum ≤ s.copiesLeft + s.jobs.length * (n + 3) := by
  unfold copiesLeft
  induction s.jobs with
  | nil => exact Nat.zero_le _
  | cons j jobs ih =>
    have hj : jobWork n j.phase ≤ (match j.phase with
        | .started => 0
        | .routed addrs | .sending addrs => addrs.length) + (n + 3) := by
      cases j.phase with
      | started => simp [jobWork]
      | routed addrs => simp only [jobWork]; omega
      | sending addrs => simp only [jobWork]; omega
    simp only [List.map_cons, List.sum_cons, List.length_cons, Nat.succ_mul]
    omega

theorem taskWork_le (n : Nat) (t : PeerTask) : taskWork n t ≤ 12 * n + 94 := by
  have hqueue : (n + 8) * t.rx.queue.length ≤ (n + 8) * 10 :=
    Nat.mul_le_mul_left _ t.rx.bounded
  have hphase : phaseWork n t.phase ≤ 2 * n + 14 := by
    cases t.phase <;> simp only [phaseWork] <;> omega
  unfold taskWork
  omega

/-- **The server settles soon.**  With `m` clients in the table, a run of its own
steps has no more than `12 m² + 224 m + 642` of them, and one for each copy that
was to be sent before. -/
theorem settles_within (h : (lts plugin).Reachable s) (hopen : s.events.closed = false)
    {r : List (Label × Server P)} (hr : (lts plugin).Run s r) (hown : Lts.Labelled Label.Own r) :
    r.length ≤ 12 * s.manager.cache.entries.length ^ 2 + 224 * s.manager.cache.entries.length +
      642 + s.copiesLeft := by
  have hlen := run_length_le hr hown
  have hfanout : fanout s ≤ s.manager.cache.entries.length + 2 := by
    have hheld : s.recv.held.toList.length ≤ 1 := by cases s.recv.held <;> simp
    unfold fanout
    omega
  unfold load at hlen
  generalize fanout s = n at hlen hfanout
  have hrecv : recvWork n s.recv ≤ 2 * n + 18 := by
    cases s.recv <;> simp only [recvWork] <;> omega
  have htasks : (s.tasks.map (taskWork n)).sum ≤
      12 * s.manager.cache.entries.length ^ 2 + 118 * s.manager.cache.entries.length := by
    have hsound := sound_of_reachable h
    calc (s.tasks.map (taskWork n)).sum
        ≤ s.tasks.countP (fun t => !t.ended) * (12 * n + 94) := by
          refine sum_le_countP_mul (fun t _ => taskWork_le n t) fun t ht hlive => ?_
          obtain ⟨hdone, hqueue⟩ := hsound.ended ht (by simpa using hlive)
          simp [taskWork, phaseWork, hdone, hqueue]
      _ ≤ s.manager.cache.entries.length *
            (12 * (s.manager.cache.entries.length + 2) + 94) :=
          Nat.mul_le_mul (countP_live_le h hopen) (by omega)
      _ = _ := by ring
  have hevents : (n + 4) * s.events.queue.length ≤ (n + 4) * 100 :=
    Nat.mul_le_mul_left _ s.events.bounded
  have hjobs : (s.jobs.map fun j => jobWork n j.phase).sum ≤ s.copiesLeft + 4 * (n + 3) :=
    (sum_jobWork_le n s).trans
      (Nat.add_le_add_left (Nat.mul_le_mul_right _ (length_jobs_le h)) _)
  omega

/-- Bob is known, and Alice's frame with her task. -/
def arrived : Server Empty :=
  outcome noPlugin [] (arrive ⟨[0], bob⟩ ++ arrive ⟨lanDatagram, alice⟩)

/-- It is relayed. -/
def relayed : List (Label × Server Empty) :=
  (arrived.play noPlugin (serve 1 ++ [.take, .job, .job, .job, .job])).getD []

theorem settles_within_relayed : relayed.length = 9 ∧
    relayed.length ≤ 12 * 2 ^ 2 + 224 * 2 + 642 + arrived.copiesLeft := by
  have hplay : arrived.play noPlugin (serve 1 ++ [.take, .job, .job, .job, .job]) =
      some relayed := rfl
  exact ⟨rfl, settles_within (reachable_outcome noPlugin [] _) rfl (run_of_play hplay) (by decide)⟩

end Server

end SlpServer
