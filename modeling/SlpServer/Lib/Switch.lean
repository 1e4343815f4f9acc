import SlpServer.Lib.Latest

/-!
# A learning switch

Ports come up and go down, and frames come in at them, each with the address it
is from and the one it is for.  The switch remembers behind which port it last
saw an address.  A frame goes to the port of its destination, once there is one,
and to all other ports that are up until then.

A port that is up may be idle, and the switch may leave such ports out.  What it
does is said of the whole history of what it has seen: it has no state here.
-/

universe u v

/-- What a switch sees, with ports `π` and addresses `α`. -/
inductive SwitchEvent (π : Type u) (α : Type v)
  | up (p : π) (busy : Bool)
  | down (p : π)
  /-- A frame from `src` to `dst` comes in at `p`. -/
  | frame (p : π) (src dst : α)

namespace SwitchEvent

variable {π : Type u} {α : Type v}

/-- The port an event shows an address to be behind. -/
def shows [DecidableEq α] (x : α) : SwitchEvent π α → Option π
  | frame p src _ => if src = x then some p else none
  | _ => none

/-- What becomes of a port: whether it is up, and then whether it is busy. -/
def turns [DecidableEq π] (q : π) : SwitchEvent π α → Option (Option Bool)
  | up p busy => if p = q then some (some busy) else none
  | down p => if p = q then some none else none
  | frame _ _ _ => none

end SwitchEvent

namespace Switch

variable {π : Type u} {α : Type v}

/-- The port behind which an address was last seen. -/
def portOf [DecidableEq α] (h : List (SwitchEvent π α)) (x : α) : Option π :=
  latest (SwitchEvent.shows x) h

/-- A port that is up, and whether it is busy. -/
def status [DecidableEq π] (h : List (SwitchEvent π α)) (q : π) : Option Bool :=
  (latest (SwitchEvent.turns q) h).join

/-- A port that frames without a known destination go to. -/
def Open [DecidableEq π] (ignoreIdle : Bool) (h : List (SwitchEvent π α)) (q : π) : Prop :=
  ∃ busy, status h q = some busy ∧ (ignoreIdle = true → busy = true)

/-- After `h`, a frame that comes in at `p` goes out at `q`. -/
def Forwards [DecidableEq π] [DecidableEq α] (ignoreIdle : Bool) (h : List (SwitchEvent π α))
    (p : π) (src dst : α) (q : π) : Prop :=
  match portOf (h ++ [.frame p src dst]) dst with
  | some r => q = r
  | none => q ≠ p ∧ Open ignoreIdle h q

theorem portOf_concat [DecidableEq α] (h : List (SwitchEvent π α)) (e : SwitchEvent π α) (x : α) :
    portOf (h ++ [e]) x = (e.shows x).or (portOf h x) := latest_concat _ _ _

theorem status_concat [DecidableEq π] (h : List (SwitchEvent π α)) (e : SwitchEvent π α) (q : π) :
    status (h ++ [e]) q = match e.turns q with
      | some s => s
      | none => status h q := by
  rw [status, latest_concat]
  cases e.turns q <;> rfl

variable [DecidableEq π] [DecidableEq α]

/-- A frame for an address that was seen goes to one port. -/
theorem forwards_of_some {ignoreIdle : Bool} {h : List (SwitchEvent π α)} {p r : π} {src dst : α}
    (hr : portOf (h ++ [.frame p src dst]) dst = some r) (q : π) :
    Forwards ignoreIdle h p src dst q ↔ q = r := by
  rw [Forwards, hr]

/-- Other frames go to all open ports but their own. -/
theorem forwards_of_none {ignoreIdle : Bool} {h : List (SwitchEvent π α)} {p : π} {src dst : α}
    (hr : portOf (h ++ [.frame p src dst]) dst = none) (q : π) :
    Forwards ignoreIdle h p src dst q ↔ q ≠ p ∧ Open ignoreIdle h q := by
  rw [Forwards, hr]

end Switch
