import Mathlib.Data.List.Destutter

/-!
# Dropping repeated items

`util/filter_same.rs`.  The state of the scan is the last item, and an item
equal to it is not passed on.

`filterSame` is one round of the scan, `filterSameAll` all of it on the items of
a stream that ends: Mathlib's `destutter` at `≠`.  The state to go on with after
some items is the last of them, so a stream may be cut anywhere
(`filterSameFrom_append`).
-/

namespace SlpServer

variable {α : Type} [DecidableEq α]

/-- One item through `filter_same`: what is passed on, and the state. -/
def filterSame (state : Option α) (x : α) : Option α × Option α :=
  if state = some x then (none, state) else (some x, some x)

/-- An item that is dropped is the one the state has. -/
theorem filterSame_same (x : α) : filterSame (some x) x = (none, some x) := if_pos rfl

theorem filterSame_other {state : Option α} {x : α} (h : state ≠ some x) :
    filterSame state x = (some x, some x) := if_neg h

theorem filterSame_snd (state : Option α) (x : α) : (filterSame state x).2 = some x := by
  unfold filterSame
  split
  · assumption
  · rfl

theorem getLast?_received {received : List α} (x : α) :
    (received ++ (filterSame received.getLast? x).1.toList).getLast? = some x := by
  by_cases h : received.getLast? = some x
  · rw [h, filterSame_same]
    simpa using h
  · rw [filterSame_other h]
    simp

/-! ### All items of a stream -/

/-- `StreamExt::scan` on the items of a stream: `none` ends it. -/
def scan {σ β γ : Type} (f : σ → β → Option γ × σ) : σ → List β → List γ
  | _, [] => []
  | state, x :: xs =>
    match f state x with
    | (some y, state) => y :: scan f state xs
    | (none, _) => []

/-- `filter_same` from a state on.  No item ends the scan: one that is dropped is
a `none` inside the item, for `filter_map` to skip. -/
def filterSameFrom (state : Option α) (xs : List α) : List α :=
  let items := scan (fun state x =>
    let (out, state) := filterSame state x
    (some out, state)) state xs
  items.filterMap id

/-- `FilterSameExt::filter_same`. -/
def filterSameAll (xs : List α) : List α := filterSameFrom none xs

@[simp] theorem filterSameFrom_nil (state : Option α) : filterSameFrom state [] = [] := rfl

theorem filterSameFrom_cons (state : Option α) (x : α) (xs : List α) :
    filterSameFrom state (x :: xs) =
      (filterSame state x).1.toList ++ filterSameFrom (some x) xs := by
  rw [← filterSame_snd state x]
  unfold filterSameFrom
  show ((filterSame state x).1 :: scan _ (filterSame state x).2 xs).filterMap id = _
  cases (filterSame state x).1 <;> rfl

theorem filterSameFrom_same (x : α) (xs : List α) :
    filterSameFrom (some x) (x :: xs) = filterSameFrom (some x) xs := by
  rw [filterSameFrom_cons, filterSame_same]
  rfl

theorem filterSameFrom_other {state : Option α} {x : α} (h : state ≠ some x) (xs : List α) :
    filterSameFrom state (x :: xs) = x :: filterSameFrom (some x) xs := by
  rw [filterSameFrom_cons, filterSame_other h]
  rfl

/-- A stream may be cut anywhere: the filter goes on with the last item. -/
theorem filterSameFrom_append (state : Option α) (xs ys : List α) :
    filterSameFrom state (xs ++ ys) =
      filterSameFrom state xs ++ filterSameFrom (xs.getLast?.or state) ys := by
  induction xs generalizing state with
  | nil => rfl
  | cons x xs ih =>
    have hlast : (x :: xs).getLast?.or state = xs.getLast?.or (some x) := by
      rw [List.getLast?_cons]
      cases xs.getLast? <;> rfl
    rw [List.cons_append, filterSameFrom_cons, filterSameFrom_cons, ih, hlast, List.append_assoc]

/-- The filter is `destutter`, but for the item it starts from. -/
theorem cons_filterSameFrom (a : α) (xs : List α) :
    a :: filterSameFrom (some a) xs = xs.destutter' (· ≠ ·) a := by
  induction xs generalizing a with
  | nil => rfl
  | cons x xs ih =>
    by_cases h : a = x
    · subst h
      rw [filterSameFrom_same, List.destutter'_cons_neg xs (not_not_intro rfl), ih]
    · have hne : some a ≠ some x := fun he => h (Option.some.inj he)
      rw [filterSameFrom_other hne, List.destutter'_cons_pos xs h, ih]

theorem filterSameAll_cons (x : α) (xs : List α) :
    filterSameAll (x :: xs) = x :: filterSameFrom (some x) xs :=
  filterSameFrom_other (by simp) xs

theorem filterSameAll_eq_destutter (xs : List α) : filterSameAll xs = xs.destutter (· ≠ ·) := by
  cases xs with
  | nil => rfl
  | cons x xs => rw [filterSameAll_cons, cons_filterSameFrom, List.destutter_cons']

theorem getLast?_filterSameAll (xs : List α) : (filterSameAll xs).getLast? = xs.getLast? := by
  induction xs using List.reverseRecOn with
  | nil => rfl
  | append_singleton xs x ih =>
    rw [filterSameAll, filterSameFrom_append, Option.or_none, filterSameFrom_cons,
      filterSameFrom_nil, List.append_nil, List.getLast?_concat, ← ih]
    exact getLast?_received x

/-! ### Runs -/

/-- The items of some runs: `(a, n)` is an `a` and `n` more of it. -/
def ofRuns (runs : List (α × Nat)) : List α :=
  runs.flatMap fun r => List.replicate (r.2 + 1) r.1

omit [DecidableEq α] in
theorem ofRuns_cons (a : α) (n : Nat) (runs : List (α × Nat)) :
    ofRuns ((a, n) :: runs) = List.replicate (n + 1) a ++ ofRuns runs := rfl

/-- Of each run the filter passes on the first item. -/
theorem exists_runs_cons (a : α) (xs : List α) : ∃ n runs,
    a :: xs = ofRuns ((a, n) :: runs) ∧ filterSameFrom (some a) xs = runs.map Prod.fst := by
  induction xs generalizing a with
  | nil => exact ⟨0, [], rfl, rfl⟩
  | cons x xs ih =>
    by_cases h : a = x
    · subst h
      obtain ⟨n, runs, hxs, hout⟩ := ih a
      refine ⟨n + 1, runs, ?_, ?_⟩
      · rw [hxs, ofRuns_cons, ofRuns_cons, List.replicate_succ (n := n + 1), List.cons_append]
      · rw [filterSameFrom_same, hout]
    · obtain ⟨n, runs, hxs, hout⟩ := ih x
      have hne : some a ≠ some x := fun he => h (Option.some.inj he)
      refine ⟨0, (x, n) :: runs, ?_, ?_⟩
      · rw [hxs]
        rfl
      · rw [filterSameFrom_other hne, hout]
        rfl

theorem exists_runs (xs : List α) : ∃ runs : List (α × Nat),
    xs = ofRuns runs ∧ filterSameAll xs = runs.map Prod.fst := by
  cases xs with
  | nil => exact ⟨[], rfl, rfl⟩
  | cons x xs =>
    obtain ⟨n, runs, hxs, hout⟩ := exists_runs_cons x xs
    refine ⟨(x, n) :: runs, hxs, ?_⟩
    rw [filterSameAll_cons, hout]
    rfl

/-! ### What the filter does to a stream -/

/-- The items without the first one, if that is `last`. -/
def dropFirst (last : Option α) : List α → List α
  | [] => []
  | y :: ys => if last = some y then ys else y :: ys

/-- Where the filter goes on, it drops the first item if it has had it. -/
theorem filterSameFrom_eq_dropFirst (last : Option α) (ys : List α) :
    filterSameFrom last ys = dropFirst last (filterSameAll ys) := by
  cases ys with
  | nil => rfl
  | cons y ys =>
    rw [filterSameAll_cons, dropFirst]
    split
    · rename_i h
      rw [h, filterSameFrom_same]
    · rename_i h
      rw [filterSameFrom_other h]

/-- **`filter_same` drops the consecutive repeats and nothing else.** -/
theorem filterSameAll_spec (xs : List α) :
    (filterSameAll xs).IsChain (· ≠ ·) ∧
    (∃ runs : List (α × Nat), xs = ofRuns runs ∧ (runs.map Prod.fst).IsChain (· ≠ ·) ∧
      filterSameAll xs = runs.map Prod.fst) ∧
    (filterSameAll xs).getLast? = xs.getLast? ∧
    filterSameAll (filterSameAll xs) = filterSameAll xs ∧
    ∀ ys, filterSameAll (xs ++ ys) =
      filterSameAll xs ++ dropFirst xs.getLast? (filterSameAll ys) := by
  have hchain : (filterSameAll xs).IsChain (· ≠ ·) := by
    rw [filterSameAll_eq_destutter]
    exact List.isChain_destutter _ xs
  obtain ⟨runs, hxs, hout⟩ := exists_runs xs
  refine ⟨hchain, ⟨runs, hxs, hout ▸ hchain, hout⟩, getLast?_filterSameAll xs, ?_, ?_⟩
  · simp only [filterSameAll_eq_destutter, List.destutter_idem]
  · intro ys
    rw [filterSameAll, filterSameFrom_append, Option.or_none,
      filterSameFrom_eq_dropFirst xs.getLast?]
    rfl

end SlpServer
