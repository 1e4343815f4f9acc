import Mathlib.Data.List.Basic

/-!
# A broadcast channel

`Broadcast α cap` is `tokio::sync::broadcast` with room for `cap` values: it
retains the last `cap` values sent, and each receiver has its own position
among them.  A receiver that has fallen behind the retained values is told how
many it missed and goes on with the oldest one there is.  A value sent while
there is no receiver is lost.

`recv_last` is the case of a receiver that is one value behind, `recv_tail` of
one that has seen everything, and `recv_lagged` of one that the buffer no longer
serves.
-/

universe u

structure Broadcast (α : Type u) (cap : Nat) where
  /-- The number of values sent. -/
  tail : Nat
  /-- The last ones, the oldest first. -/
  buffer : List α
  receivers : Nat
  length_buffer : buffer.length = min cap tail

namespace Broadcast

variable {α : Type u} {cap : Nat}

def new : Broadcast α cap := ⟨0, [], 0, by simp⟩

/-- `subscribe`: the position of a new receiver. -/
def subscribe (self : Broadcast α cap) : Nat × Broadcast α cap :=
  (self.tail, { self with receivers := self.receivers + 1 })

/-- A receiver is dropped. -/
def unsubscribe (self : Broadcast α cap) : Broadcast α cap :=
  { self with receivers := self.receivers - 1 }

/-- The channel with one value more. -/
def push (self : Broadcast α cap) (v : α) : Broadcast α cap where
  tail := self.tail + 1
  buffer := (self.buffer ++ [v]).drop (self.buffer.length + 1 - cap)
  receivers := self.receivers
  length_buffer := by
    have h := self.length_buffer
    rw [List.length_drop, List.length_append, List.length_singleton]
    omega

/-- `send`; the only error is that there is no receiver. -/
def send (self : Broadcast α cap) (v : α) : Option (Broadcast α cap) :=
  if self.receivers = 0 then none else some (self.push v)

/-- What a receiver gets, and its position afterwards. -/
inductive Recv (α : Type u)
  | value (v : α) (next : Nat)
  | lagged (missed : Nat) (next : Nat)
  | empty

/-- `recv` without the wait for a value. -/
def recv (self : Broadcast α cap) (next : Nat) : Recv α :=
  let oldest := self.tail - self.buffer.length
  if next < oldest then
    .lagged (oldest - next) oldest
  else
    match self.buffer[next - oldest]? with
    | some v => .value v (next + 1)
    | none => .empty

@[simp] theorem tail_push (c : Broadcast α cap) (v : α) : (c.push v).tail = c.tail + 1 := rfl

@[simp] theorem receivers_push (c : Broadcast α cap) (v : α) :
    (c.push v).receivers = c.receivers := rfl

theorem send_of_receivers {c : Broadcast α cap} (h : 0 < c.receivers) (v : α) :
    c.send v = some (c.push v) := if_neg (by omega)

theorem getLast?_push (hcap : 0 < cap) (c : Broadcast α cap) (v : α) :
    (c.push v).buffer.getLast? = some v := by
  rw [push, List.getLast?_drop, if_neg, List.getLast?_concat]
  rw [List.length_append, List.length_singleton]
  omega

/-- A receiver that has seen everything waits. -/
theorem recv_tail (c : Broadcast α cap) : c.recv c.tail = .empty := by
  have h := c.length_buffer
  unfold recv
  rw [if_neg (by omega), List.getElem?_eq_none (by omega)]

/-- A receiver that is one value behind gets that value. -/
theorem recv_last {c : Broadcast α cap} {next : Nat} {v : α} (hnext : next + 1 = c.tail)
    (hlast : c.buffer.getLast? = some v) : c.recv next = .value v c.tail := by
  have h := c.length_buffer
  have hpos : 0 < c.buffer.length := by
    apply List.length_pos_of_ne_nil
    rintro hnil
    rw [hnil] at hlast
    cases hlast
  have hindex : next - (c.tail - c.buffer.length) = c.buffer.length - 1 := by omega
  rw [List.getLast?_eq_getElem?] at hlast
  unfold recv
  rw [if_neg (by omega), hindex, hlast, hnext]

/-- A receiver that has fallen behind is told so and goes on with the oldest
value. -/
theorem recv_lagged {c : Broadcast α cap} {next : Nat} (h : next + cap < c.tail) :
    c.recv next = .lagged (c.tail - cap - next) (c.tail - cap) := by
  have hlen := c.length_buffer
  have hcap : c.buffer.length = cap := by omega
  unfold recv
  rw [hcap, if_pos (by omega)]

end Broadcast
