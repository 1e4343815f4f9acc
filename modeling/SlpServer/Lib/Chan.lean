import Mathlib.Data.List.Basic

/-!
# Bounded channels

A channel with one receiver and a fixed capacity.  Its messages are a queue,
which never holds more than the capacity; once the receiver is gone the channel
is closed and empty for good.

Sending is tried at one moment.  A sender that waits for room is a sender that
tries again, at the moment there is some.
-/

universe u

/-- A channel: what is in it, the oldest first, and whether the receiver is
gone. -/
structure Chan (α : Type u) (cap : Nat) where
  queue : List α
  closed : Bool
  bounded : queue.length ≤ cap

inductive TrySendError
  | full
  | closed
  deriving DecidableEq, Repr

namespace Chan

variable {α : Type u} {cap : Nat}

def new : Chan α cap := ⟨[], false, Nat.zero_le _⟩

/-- That the receiver is gone is noticed before that the channel is full. -/
def trySend (self : Chan α cap) (x : α) : Except TrySendError (Chan α cap) :=
  if self.closed then
    .error .closed
  else if h : self.queue.length < cap then
    .ok ⟨self.queue ++ [x], false, by rw [List.length_append]; exact h⟩
  else
    .error .full

/-- The oldest message, when there is one. -/
def recv (self : Chan α cap) : Option (α × Chan α cap) :=
  match h : self.queue with
  | [] => none
  | x :: rest => some (x, ⟨rest, self.closed, by
      have hb := self.bounded
      rw [h, List.length_cons] at hb
      omega⟩)

/-- The receiver goes, and what it has not received with it. -/
def close (_self : Chan α cap) : Chan α cap := ⟨[], true, Nat.zero_le _⟩

@[simp] theorem queue_new : (new : Chan α cap).queue = [] := rfl
@[simp] theorem closed_new : (new : Chan α cap).closed = false := rfl
@[simp] theorem queue_close (c : Chan α cap) : c.close.queue = [] := rfl
@[simp] theorem closed_close (c : Chan α cap) : c.close.closed = true := rfl

theorem trySend_eq_ok {c c' : Chan α cap} {x : α} (h : c.trySend x = .ok c') :
    c.closed = false ∧ c'.closed = false ∧ c'.queue = c.queue ++ [x] := by
  rw [trySend] at h
  split at h
  · cases h
  · rename_i hc
    split at h
    · cases h
      exact ⟨by simpa using hc, rfl, rfl⟩
    · cases h

theorem trySend_eq_closed {c : Chan α cap} {x : α} :
    c.trySend x = .error .closed ↔ c.closed = true := by
  unfold trySend
  split
  · rename_i hc
    exact ⟨fun _ => hc, fun _ => rfl⟩
  · rename_i hc
    split
    · simpa using hc
    · simpa using hc

theorem recv_eq_some {c c' : Chan α cap} {x : α} (h : c.recv = some (x, c')) :
    c.queue = x :: c'.queue ∧ c'.closed = c.closed := by
  rw [recv] at h
  split at h
  · cases h
  · rename_i hq
    cases h
    exact ⟨hq, rfl⟩

theorem recv_eq_none {c : Chan α cap} : c.recv = none ↔ c.queue = [] := by
  rw [recv]
  split
  · rename_i hq
    exact ⟨fun _ => hq, fun _ => rfl⟩
  · rename_i hq
    refine ⟨fun h => (nomatch h), fun h => ?_⟩
    rw [hq] at h
    cases h

end Chan
