import Mathlib.Data.List.Basic

/-!
# Runs of a transition system

A labelled transition system has initial states and labelled steps.  A run from
a state is the list of its steps, oldest first, each with its label and the
state it leads to.

* `Lts.invariant`: what holds at the start and is kept by every step holds in
  every reachable state.
* `Lts.Between.always`: what is kept by every step that meets a condition holds
  along a run of such steps.
* `Lts.always_iff_guarded`: if a step from a good state leads to a good state
  exactly when a guard holds of it, then a run stays good exactly when each of
  its steps meets the guard.
-/

universe u v

structure Lts (σ : Type u) (ι : Type v) where
  init : σ → Prop
  step : σ → ι → σ → Prop

namespace Lts

variable {σ : Type u} {ι : Type v} (T : Lts σ ι)

/-- A state some sequence of steps leads to. -/
inductive Reachable : σ → Prop
  | init {s : σ} : T.init s → Reachable s
  | step {s s' : σ} {a : ι} : Reachable s → T.step s a s' → Reachable s'

/-- `r` lists the steps of a run from `s`. -/
def Run : σ → List (ι × σ) → Prop
  | _, [] => True
  | s, (a, s') :: r => T.step s a s' ∧ Run s' r

/-- The state a run ends in. -/
def last : σ → List (ι × σ) → σ
  | s, [] => s
  | _, (_, s') :: r => last s' r

/-- Every state of the run, the first included, satisfies `p`. -/
def Always (p : σ → Prop) : σ → List (ι × σ) → Prop
  | s, [] => p s
  | s, (_, s') :: r => p s ∧ Always p s' r

/-- Every step of the run satisfies `g`, a condition on the label and on the
state before the step. -/
def Guarded (g : σ → ι → Prop) : σ → List (ι × σ) → Prop
  | _, [] => True
  | s, (a, s') :: r => g s a ∧ Guarded g s' r

/-- Every step of the run satisfies `q`, a condition on the states before and
after it. -/
def Between (q : σ → σ → Prop) : σ → List (ι × σ) → Prop
  | _, [] => True
  | s, (_, s') :: r => q s s' ∧ Between q s' r

instance Guarded.decidable {g : σ → ι → Prop} [∀ s a, Decidable (g s a)] :
    (s : σ) → (r : List (ι × σ)) → Decidable (Guarded g s r)
  | _, [] => inferInstanceAs (Decidable True)
  | s, (a, s') :: r =>
    have : Decidable (Guarded g s' r) := Guarded.decidable s' r
    inferInstanceAs (Decidable (g s a ∧ Guarded g s' r))

instance Always.decidable {p : σ → Prop} [∀ s, Decidable (p s)] :
    (s : σ) → (r : List (ι × σ)) → Decidable (Always p s r)
  | s, [] => inferInstanceAs (Decidable (p s))
  | s, (_, s') :: r =>
    have : Decidable (Always p s' r) := Always.decidable s' r
    inferInstanceAs (Decidable (p s ∧ Always p s' r))

variable {T}

theorem invariant {p : σ → Prop} (hinit : ∀ s, T.init s → p s)
    (hstep : ∀ s a s', p s → T.step s a s' → p s') {s : σ} (h : T.Reachable s) : p s := by
  induction h with
  | init h => exact hinit _ h
  | step _ hs ih => exact hstep _ _ _ ih hs

theorem Always.head {p : σ → Prop} {s : σ} {r : List (ι × σ)} (h : Always p s r) : p s := by
  cases r with
  | nil => exact h
  | cons x r => exact h.1

theorem Always.imp {p q : σ → Prop} (hpq : ∀ s, p s → q s) {s : σ} {r : List (ι × σ)}
    (h : Always p s r) : Always q s r := by
  induction r generalizing s with
  | nil => exact hpq _ h
  | cons x r ih => exact ⟨hpq _ h.1, ih h.2⟩

theorem Always.last {p : σ → Prop} {s : σ} {r : List (ι × σ)} (h : Always p s r) :
    p (last s r) := by
  induction r generalizing s with
  | nil => exact h
  | cons x r ih => exact ih h.2

theorem Reachable.last {s : σ} (hs : T.Reachable s) {r : List (ι × σ)} (hr : T.Run s r) :
    T.Reachable (last s r) := by
  induction r generalizing s with
  | nil => exact hs
  | cons x r ih => exact ih (hs.step hr.1) hr.2

/-- What the steps of a run keep holds along it. -/
theorem Between.always {p : σ → Prop} {q : σ → σ → Prop}
    (hstep : ∀ s a s', p s → q s s' → T.step s a s' → p s') {s : σ} (hp : p s)
    {r : List (ι × σ)} (hr : T.Run s r) (hq : Between q s r) : Always p s r := by
  induction r generalizing s with
  | nil => exact hp
  | cons x r ih =>
    obtain ⟨hx, hr⟩ := hr
    exact ⟨hp, ih (hstep _ _ _ hp hq.1 hx) hr hq.2⟩

/-- What the steps between states of `q` keep holds along a run through them. -/
theorem Always.of_always {p q : σ → Prop}
    (hstep : ∀ s a s', p s → q s → q s' → T.step s a s' → p s') {s : σ} (hp : p s)
    {r : List (ι × σ)} (hr : T.Run s r) (hq : Always q s r) : Always p s r := by
  induction r generalizing s with
  | nil => exact hp
  | cons x r ih =>
    obtain ⟨hx, hr⟩ := hr
    exact ⟨hp, ih (hstep _ _ _ hp hq.1 hq.2.head hx) hr hq.2⟩

theorem Guarded.between {g : σ → ι → Prop} {q : σ → σ → Prop} (hgq : ∀ s a s', g s a → q s s')
    {s : σ} {r : List (ι × σ)} (h : Guarded g s r) : Between q s r := by
  induction r generalizing s with
  | nil => trivial
  | cons x r ih => exact ⟨hgq _ _ _ h.1, ih h.2⟩

theorem Guarded.imp {g g' : σ → ι → Prop} (hg : ∀ s a, g s a → g' s a) {s : σ}
    {r : List (ι × σ)} (h : Guarded g s r) : Guarded g' s r := by
  induction r generalizing s with
  | nil => trivial
  | cons x r ih => exact ⟨hg _ _ h.1, ih h.2⟩

theorem Always.of_last {p : σ → Prop} (hstep : ∀ s a s', T.step s a s' → p s' → p s) {s : σ}
    {r : List (ι × σ)} (hr : T.Run s r) (h : p (Lts.last s r)) : Always p s r := by
  induction r generalizing s with
  | nil => exact h
  | cons x r ih =>
    have hrest := ih hr.2 h
    exact ⟨hstep _ _ _ hr.1 hrest.head, hrest⟩

/-- `always_iff_guarded` for runs through states of `q` only. -/
theorem always_iff_guarded_within {p q : σ → Prop} {g : σ → ι → Prop}
    (hstep : ∀ s a s', T.Reachable s → p s → q s' → T.step s a s' → (p s' ↔ g s a))
    {s : σ} (hs : T.Reachable s) (hp : p s) {r : List (ι × σ)} (hr : T.Run s r)
    (hq : Always q s r) : Always p s r ↔ Guarded g s r := by
  induction r generalizing s with
  | nil => exact ⟨fun _ => trivial, fun _ => hp⟩
  | cons x r ih =>
    obtain ⟨hx, hr⟩ := hr
    have hiff := hstep _ _ _ hs hp hq.2.head hx
    constructor
    · intro h
      have hp' := h.2.head
      exact ⟨hiff.mp hp', (ih (hs.step hx) hp' hr hq.2).mp h.2⟩
    · intro h
      have hp' := hiff.mpr h.1
      exact ⟨hp, (ih (hs.step hx) hp' hr hq.2).mpr h.2⟩

theorem always_true (s : σ) (r : List (ι × σ)) : Always (fun _ => True) s r := by
  induction r generalizing s with
  | nil => trivial
  | cons x r ih => exact ⟨trivial, ih x.2⟩

/-- **A run stays good exactly when each of its steps meets the guard.** -/
theorem always_iff_guarded {p : σ → Prop} {g : σ → ι → Prop}
    (hstep : ∀ s a s', T.Reachable s → p s → T.step s a s' → (p s' ↔ g s a))
    {s : σ} (hs : T.Reachable s) (hp : p s) {r : List (ι × σ)} (hr : T.Run s r) :
    Always p s r ↔ Guarded g s r :=
  always_iff_guarded_within (fun _ _ _ hs hp _ h => hstep _ _ _ hs hp h) hs hp hr (always_true s r)

end Lts
