import Mathlib.Data.List.Basic
import Mathlib.Data.List.DropRight

/-!
# The latest of some events

`f` says of each event of a history whether it sets a value, and to which.
`latest f h` is the value the last such event of `h` has set.

A register that is written at exactly these events holds `latest f h`
(`latest_concat` is the step), and `latest_eq_some_iff` says of which event its
value is.  `since f h` are the events behind that one.
-/

universe u v

section

variable {ι : Type u} {β : Type v} {f : ι → Option β} {h : List ι} {b : β}

/-- The value set by the last event that sets one. -/
def latest (f : ι → Option β) (h : List ι) : Option β := h.reverse.findSome? f

theorem latest_concat (f : ι → Option β) (h : List ι) (e : ι) :
    latest f (h ++ [e]) = (f e).or (latest f h) := by
  rw [latest, List.reverse_append, List.reverse_singleton, List.singleton_append,
    List.findSome?_cons]
  cases f e <;> rfl

theorem latest_map {α : Type u} (g : α → ι) (h : List α) :
    latest f (h.map g) = latest (fun a => f (g a)) h := by
  rw [latest, ← List.map_reverse, List.findSome?_map]
  rfl

/-- Events that set nothing can be left out. -/
theorem latest_filter {keep : ι → Bool} (hkeep : ∀ e ∈ h, keep e = false → f e = none) :
    latest f (h.filter keep) = latest f h := by
  induction h using List.reverseRecOn with
  | nil => rfl
  | append_singleton h e ih =>
    have ih := ih fun e he => hkeep e (List.mem_append_left _ he)
    rw [List.filter_append, List.filter_singleton, latest_concat]
    cases he : keep e with
    | true =>
      show latest f (h.filter keep ++ [e]) = _
      rw [latest_concat, ih]
    | false =>
      rw [hkeep e (by simp) he, Option.none_or]
      simpa using ih

/-- A history may be read through another one that has all its settings. -/
theorem latest_filterMap {α : Type*} {f' : α → Option β} {view : ι → Option α}
    (hview : ∀ e, f e = (view e).bind f') (h : List ι) :
    latest f h = latest f' (h.filterMap view) := by
  induction h using List.reverseRecOn with
  | nil => rfl
  | append_singleton h e ih =>
    rw [List.filterMap_append, latest_concat, ih, hview e]
    cases hv : view e with
    | none => simp [hv]
    | some x =>
      rw [List.filterMap_cons_some hv, List.filterMap_nil, latest_concat, Option.bind_some]

theorem latest_eq_none_iff : latest f h = none ↔ ∀ e ∈ h, f e = none := by
  simp [latest]

theorem latest_eq_some_iff : latest f h = some b ↔
    ∃ pre e post, h = pre ++ e :: post ∧ f e = some b ∧ ∀ e' ∈ post, f e' = none := by
  rw [latest, List.findSome?_eq_some_iff]
  constructor
  · rintro ⟨post, e, pre, hh, he, hpost⟩
    refine ⟨pre.reverse, e, post.reverse, ?_, he, fun e' he' => hpost e' (List.mem_reverse.mp he')⟩
    rw [← List.reverse_reverse h, hh]
    simp
  · rintro ⟨pre, e, post, rfl, he, hpost⟩
    refine ⟨post.reverse, e, pre.reverse, by simp, he, ?_⟩
    intro e' he'
    exact hpost e' (List.mem_reverse.mp he')

/-- Where an event stands in a history: at its end, or before. -/
theorem exists_split_concat {e : ι} {p : List ι → ι → Prop} :
    (∃ pre x post, h ++ [e] = pre ++ x :: post ∧ p pre x) ↔
      (∃ pre x post, h = pre ++ x :: post ∧ p pre x) ∨ p h e := by
  constructor
  · rintro ⟨pre, x, post, hh, hp⟩
    rcases List.eq_nil_or_concat post with rfl | ⟨post, y, rfl⟩
    · obtain ⟨rfl, hx⟩ := List.append_inj' hh rfl
      cases hx
      exact .inr hp
    · rw [List.concat_eq_append, ← List.cons_append, ← List.append_assoc] at hh
      obtain ⟨rfl, -⟩ := List.append_inj' hh rfl
      exact .inl ⟨pre, x, post, rfl, hp⟩
  · rintro (⟨pre, x, post, rfl, hp⟩ | hp)
    · exact ⟨pre, x, post ++ [e], by simp, hp⟩
    · exact ⟨h, e, [], rfl, hp⟩

/-- The events behind the last one that sets a value. -/
def since (f : ι → Option β) (h : List ι) : List ι := h.rtakeWhile fun e => (f e).isNone

theorem since_concat_some {e : ι} (h : List ι) (he : f e = some b) : since f (h ++ [e]) = [] := by
  rw [since, List.rtakeWhile_concat_neg]
  rw [he]
  exact Bool.false_ne_true

theorem since_concat_none {e : ι} (h : List ι) (he : f e = none) :
    since f (h ++ [e]) = since f h ++ [e] := by
  rw [since, List.rtakeWhile_concat_pos]
  · rfl
  · rw [he]
    rfl

theorem eq_none_of_mem_since {e : ι} (he : e ∈ since f h) : f e = none := by
  simpa using List.mem_rtakeWhile_imp he

theorem since_filterMap {α : Type*} {f' : α → Option β} {view : ι → Option α}
    (hview : ∀ e, f e = (view e).bind f') (h : List ι) :
    (since f h).filterMap view = since f' (h.filterMap view) := by
  induction h using List.reverseRecOn with
  | nil => rfl
  | append_singleton h e ih =>
    have he := hview e
    cases hv : view e with
    | none =>
      rw [hv] at he
      rw [since_concat_none h he, List.filterMap_append, List.filterMap_append, ih,
        List.filterMap_cons_none hv, List.filterMap_nil, List.append_nil, List.append_nil]
    | some x =>
      rw [hv, Option.bind_some] at he
      rw [List.filterMap_append, List.filterMap_cons_some hv, List.filterMap_nil]
      cases hx : f' x with
      | none =>
        rw [since_concat_none _ hx, since_concat_none h (he.trans hx), List.filterMap_append, ih,
          List.filterMap_cons_some hv, List.filterMap_nil]
      | some b =>
        rw [since_concat_some _ hx, since_concat_some h (he.trans hx), List.filterMap_nil]

end
