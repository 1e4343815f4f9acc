import SlpServer.Lib.Lts

/-!
# Runs that come to an end

Some of the labels of a transition system are its own, the others are for its
surroundings.  When a measure goes down with every step of its own, the system
left alone comes to rest: `length_add_le` bounds its runs, and `exists_rest`
gives one to a state without a step of its own.
-/

universe u v

namespace Lts

variable {σ : Type u} {ι : Type v} {T : Lts σ ι} {own : ι → Prop}

/-- The steps of the run have labels of `own` only. -/
def Labelled (own : ι → Prop) (r : List (ι × σ)) : Prop := ∀ x ∈ r, own x.1

instance [DecidablePred own] (r : List (ι × σ)) : Decidable (Labelled own r) :=
  inferInstanceAs (Decidable (∀ x ∈ r, own x.1))

/-- There is no step with a label of `own`. -/
def Rest (T : Lts σ ι) (own : ι → Prop) (s : σ) : Prop := ∀ a s', own a → ¬ T.step s a s'

theorem Labelled.nil : Labelled own ([] : List (ι × σ)) := fun _ h => (nomatch h)

theorem labelled_cons {x : ι × σ} {r : List (ι × σ)} :
    Labelled own (x :: r) ↔ own x.1 ∧ Labelled own r := List.forall_mem_cons

theorem Labelled.always {p : σ → Prop} (hstep : ∀ s a s', p s → own a → T.step s a s' → p s')
    {s : σ} (hp : p s) {r : List (ι × σ)} (hr : T.Run s r) (hown : Labelled own r) :
    Always p s r := by
  induction r generalizing s with
  | nil => exact hp
  | cons x r ih =>
    obtain ⟨hx, hr⟩ := hr
    obtain ⟨ha, hown⟩ := labelled_cons.mp hown
    exact ⟨hp, ih (hstep _ _ _ hp ha hx) hr hown⟩

/-- **A measure bounds the runs**, as long as an invariant `q` of theirs holds. -/
theorem length_add_le {q : σ → Prop} {μ : σ → Nat}
    (hstep : ∀ s a s', q s → own a → T.step s a s' → q s' ∧ μ s' < μ s) {s : σ} (hs : q s)
    {r : List (ι × σ)} (hr : T.Run s r) (hown : Labelled own r) :
    r.length + μ (last s r) ≤ μ s := by
  induction r generalizing s with
  | nil => exact Nat.le_of_eq (Nat.zero_add _)
  | cons x r ih =>
    obtain ⟨hx, hr⟩ := hr
    obtain ⟨ha, hown⟩ := labelled_cons.mp hown
    obtain ⟨hq, hlt⟩ := hstep _ _ _ hs ha hx
    have hrest := ih hq hr hown
    rw [List.length_cons, last]
    omega

/-- **The system left alone comes to rest.** -/
theorem exists_rest {q : σ → Prop} {μ : σ → Nat}
    (hstep : ∀ s a s', q s → own a → T.step s a s' → q s' ∧ μ s' < μ s) {s : σ} (hs : q s) :
    ∃ r, T.Run s r ∧ Labelled own r ∧ T.Rest own (last s r) := by
  induction hn : μ s using Nat.strongRecOn generalizing s with
  | ind n ih =>
    by_cases hrest : T.Rest own s
    · exact ⟨[], trivial, .nil, hrest⟩
    · unfold Rest at hrest
      push Not at hrest
      obtain ⟨a, s', ha, hx⟩ := hrest
      obtain ⟨hq, hlt⟩ := hstep _ _ _ hs ha hx
      obtain ⟨r, hr, hown, hend⟩ := ih (μ s') (by omega) hq rfl
      exact ⟨(a, s') :: r, ⟨hx, hr⟩, labelled_cons.mpr ⟨ha, hown⟩, hend⟩

end Lts
