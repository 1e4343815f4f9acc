import SlpServer.Lib.Lru
import SlpServer.Lib.Rust

/-!
# Keyed work on one cache

Some items have a key, and work on one of them reads the entry of its key, writes
it and may take it out again.  With all entries in one cache, the items of one
key can push out the entry of another.

`Spaced` says that this does not happen: between two uses of a key there are
fewer other keys than the cache holds.  Then the items of each key are answered
as if they were alone (`isolated`), however they are mixed with the others.  The
invariant is `Agrees`: a run on the one entry of a key has given the same
answers, and `Within` says that the cache still has that entry.
-/

namespace Keyed

open Rust

variable {ι κ ν ρ σ τ : Type}

/-! ### Runs with answers -/

/-- One item, its answer behind those before it. -/
def round (step : σ → ι → Exec (ρ × σ)) (x : List (ι × ρ) × σ) (i : ι) :
    Exec (List (ι × ρ) × σ) := do
  let (r, s) ← step x.2 i
  pure (x.1 ++ [(i, r)], s)

/-- Items one after the other, each with its answer, and the state after them. -/
def run (step : σ → ι → Exec (ρ × σ)) (s : σ) (items : List ι) : Exec (List (ι × ρ) × σ) :=
  items.foldlM (round step) ([], s)

section
variable {step : σ → ι → Exec (ρ × σ)} {s t u : σ} {items : List ι} {out : List (ι × ρ)} {i : ι}

theorem run_nil : run step s [] = .ok ([], s) := rfl

theorem run_concat (h : run step s items = .ok (out, t)) {r : ρ} (hi : step t i = .ok (r, u)) :
    run step s (items ++ [i]) = .ok (out ++ [(i, r)], u) := by
  unfold run at h ⊢
  rw [List.foldlM_append, h, ok_bind, List.foldlM_cons, round, hi]
  rfl

/-- A run that returns has returned at each of its items. -/
theorem of_run_concat (h : run step s (items ++ [i]) = .ok (out, u)) :
    ∃ out' t r, run step s items = .ok (out', t) ∧ step t i = .ok (r, u) ∧
      out = out' ++ [(i, r)] := by
  unfold run at h ⊢
  rw [List.foldlM_append, bind_eq_ok] at h
  obtain ⟨⟨out', t⟩, hrun, h⟩ := h
  rw [List.foldlM_cons, bind_eq_ok] at h
  obtain ⟨x, hround, h⟩ := h
  obtain ⟨⟨r, u'⟩, hi, hround⟩ := bind_eq_ok.mp hround
  cases hround
  cases h
  exact ⟨out', t, r, hrun, hi, rfl⟩

theorem of_mem_run (h : run step s items = .ok (out, t)) {x : ι × ρ} (hx : x ∈ out) :
    ∃ u u', step u x.1 = .ok (x.2, u') := by
  induction items using List.reverseRecOn generalizing out t with
  | nil =>
    cases h
    cases hx
  | append_singleton items i ih =>
    obtain ⟨out', t', r, hrun, hi, rfl⟩ := of_run_concat h
    rcases List.mem_append.mp hx with hx | hx
    · exact ih hrun hx
    · rw [List.mem_singleton.mp hx]
      exact ⟨t', t, hi⟩

theorem returns_of_append {more : List ι} (h : Returns (run step s (items ++ more))) :
    Returns (run step s items) := by
  induction more using List.reverseRecOn with
  | nil => rwa [List.append_nil] at h
  | append_singleton more i ih =>
    obtain ⟨⟨out, t⟩, h⟩ := h
    rw [← List.append_assoc] at h
    obtain ⟨out', t', _, h, _⟩ := of_run_concat h
    exact ih ⟨_, h⟩

/-- A run of a step that is another one under an embedding of the states. -/
theorem run_embed {step' : τ → ι → Exec (ρ × τ)} {f : σ → τ}
    (hstep : ∀ s i, step' (f s) i = (do let y ← step s i; pure (y.1, f y.2))) (s : σ)
    (items : List ι) :
    run step' (f s) items = (do let x ← run step s items; pure (x.1, f x.2)) := by
  induction items using List.reverseRecOn with
  | nil => rfl
  | append_singleton items i ih =>
    unfold run at ih ⊢
    rw [List.foldlM_append, List.foldlM_append, ih]
    cases items.foldlM (round step) ([], s) with
    | error e => rfl
    | ok x =>
      simp only [ok_bind, pure_eq_ok, List.foldlM_cons, List.foldlM_nil, round, hstep]
      cases step x.2 i <;> rfl

end

/-! ### Keyed work -/

/-- The answer to an item without a key, and the work on one with a key: from the
entry there is, the answer, what is written, and whether it is taken out again. -/
structure Work (ι κ ν ρ : Type) where
  key : ι → Option κ
  plain : ι → Exec ρ
  keyed : ι → Option ν → Exec (ρ × ν × Bool)

namespace Work

variable (w : Work ι κ ν ρ)

/-- With one entry. -/
def alone (entry : Option ν) (i : ι) : Exec (ρ × Option ν) :=
  match w.key i with
  | none => do
    let r ← w.plain i
    pure (r, entry)
  | some _ => do
    let (r, v, taken) ← w.keyed i entry
    pure (r, if taken then none else some v)

variable {cap : Nat} [NeZero cap] [DecidableEq κ]

/-- With all entries in one cache. -/
def cached (c : LruCache κ ν cap) (i : ι) : Exec (ρ × LruCache κ ν cap) :=
  match w.key i with
  | none => do
    let r ← w.plain i
    pure (r, c)
  | some k => do
    let (r, v, taken) ← w.keyed i (c.lookup k)
    pure (r, if taken then ((c.put k v).pop k).2 else c.put k v)

variable {w} {i : ι} {k : κ} {c c' : LruCache κ ν cap} {r : ρ} {entry : Option ν}

theorem cached_plain (h : w.key i = none) :
    w.cached c i = (do let r ← w.plain i; pure (r, c)) := by
  rw [cached, h]

theorem cached_keyed (h : w.key i = some k) :
    w.cached c i = (do
      let x ← w.keyed i (c.lookup k)
      pure (x.1, if x.2.2 then ((c.put k x.2.1).pop k).2 else c.put k x.2.1)) := by
  rw [cached, h]

/-- The same work, with its answers read by `g`. -/
def map (w : Work ι κ ν ρ) (g : ρ → τ) : Work ι κ ν τ where
  key := w.key
  plain i := do
    let r ← w.plain i
    pure (g r)
  keyed i entry := do
    let (r, v, taken) ← w.keyed i entry
    pure (g r, v, taken)

theorem cached_map (w : Work ι κ ν ρ) (g : ρ → τ) (c : LruCache κ ν cap) (i : ι) :
    (w.map g).cached c i = (do let x ← w.cached c i; pure (g x.1, x.2)) := by
  cases h : w.key i with
  | none =>
    rw [cached_plain h, cached_plain (w := w.map g) h]
    simp only [map]
    cases w.plain i <;> rfl
  | some k =>
    rw [cached_keyed h, cached_keyed (w := w.map g) h]
    simp only [map]
    cases w.keyed i (c.lookup k) <;> rfl

omit [DecidableEq κ] in
theorem alone_plain (h : w.key i = none) :
    w.alone entry i = (do let r ← w.plain i; pure (r, entry)) := by
  rw [alone, h]

omit [DecidableEq κ] in
theorem alone_keyed (h : w.key i = some k) :
    w.alone entry i = (do
      let x ← w.keyed i entry
      pure (x.1, if x.2.2 then none else some x.2.1)) := by
  rw [alone, h]

end Work

section
variable [DecidableEq κ]

/-- The items of one key, or those without one. -/
def ofKey (key : ι → Option κ) (o : Option κ) (items : List ι) : List ι :=
  items.filter fun i => key i = o

/-- The keys of the items after the last one of `k`. -/
def since (key : ι → Option κ) (k : κ) (items : List ι) : Finset κ :=
  ((items.reverse.takeWhile fun i => decide (key i ≠ some k)).filterMap key).toFinset

/-- Between two uses of a key there are fewer than `cap` others. -/
def Spaced (cap : Nat) (key : ι → Option κ) (items : List ι) : Prop :=
  ∀ pre i post k, items = pre ++ i :: post → key i = some k → (∃ j ∈ pre, key j = some k) →
    (since key k pre).card < cap

variable {key : ι → Option κ} {k : κ} {items : List ι} {i : ι}

theorem since_concat_self (h : key i = some k) : since key k (items ++ [i]) = ∅ := by
  simp [since, h]

theorem since_concat_none (h : key i = none) :
    since key k (items ++ [i]) = since key k items := by
  simp [since, h]

theorem since_concat_of_ne {j : κ} (h : key i = some j) (hj : j ≠ k) :
    since key k (items ++ [i]) = insert j (since key k items) := by
  simp [since, h, hj]

theorem card_since_le (key : ι → Option κ) (k : κ) (items : List ι) :
    (since key k items).card ≤ items.length := by
  refine (List.toFinset_card_le _).trans ((List.length_filterMap_le ..).trans ?_)
  exact (List.takeWhile_sublist _).length_le.trans (List.length_reverse ..).le

theorem spaced_of_length {cap : Nat} (h : items.length ≤ cap) : Spaced cap key items := by
  intro pre i post k hitems _ _
  have hsince := card_since_le key k pre
  rw [hitems, List.length_append, List.length_cons] at h
  omega

theorem since_filter_subset {keep : ι → Bool} (hk : ∀ i, key i = some k → keep i = true) :
    since key k (items.filter keep) ⊆ since key k items := by
  induction items using List.reverseRecOn with
  | nil => exact Finset.Subset.refl _
  | append_singleton items i ih =>
    rw [List.filter_append, List.filter_singleton]
    cases hi : key i with
    | none =>
      rw [since_concat_none hi]
      cases keep i with
      | false => simpa using ih
      | true => exact (since_concat_none hi).subset.trans ih
    | some j =>
      by_cases hj : j = k
      · subst hj
        rw [hk i hi, since_concat_self hi]
        exact (since_concat_self hi).subset
      · rw [since_concat_of_ne hi hj]
        cases keep i with
        | false => simpa using ih.trans (Finset.subset_insert _ _)
        | true => exact (since_concat_of_ne hi hj).subset.trans (Finset.insert_subset_insert _ ih)

theorem Spaced.filter {cap : Nat} (h : Spaced cap key items) {keep : ι → Bool}
    (hkeep : ∀ i j k, key i = some k → key j = some k → keep i = keep j) :
    Spaced cap key (items.filter keep) := by
  intro pre i post k hitems hi hex
  obtain ⟨pre', rest, rfl, rfl, hrest⟩ := List.filter_eq_append_iff.mp hitems
  obtain ⟨skipped, post', rfl, hskipped, hki, rfl⟩ := List.filter_eq_cons_iff.mp hrest
  have hk : ∀ j, key j = some k → keep j = true := fun j hj => (hkeep j i k hj hi).trans hki
  have hnone : ∀ j ∈ skipped, key j ≠ some k := fun j hj hjk => hskipped j hj (hk j hjk)
  have hfilter : (pre' ++ skipped).filter keep = pre'.filter keep := by
    rw [List.filter_append, List.filter_eq_nil_iff.mpr hskipped, List.append_nil]
  obtain ⟨j, hj, hjk⟩ := hex
  have hex' : ∃ j ∈ pre' ++ skipped, key j = some k :=
    ⟨j, List.mem_append_left _ (List.mem_filter.mp hj).1, hjk⟩
  refine Nat.lt_of_le_of_lt (Finset.card_le_card ?_)
    (h (pre' ++ skipped) i post' k (by simp) hi hex')
  rw [← hfilter]
  exact since_filter_subset hk

/-- The items of one key have nothing between them. -/
theorem spaced_ofKey {cap : Nat} [NeZero cap] (o : Option κ) (items : List ι) :
    Spaced cap key (ofKey key o items) := by
  intro pre i post k hitems hi hex
  have hall : ∀ e ∈ pre, key e = some k := by
    intro e he
    have ho : ∀ e ∈ ofKey key o items, key e = o := fun e he => by
      simpa using (List.mem_filter.mp he).2
    rw [ho e (by rw [hitems]; simp [he]), ← ho i (by rw [hitems]; simp), hi]
  have hnil : since key k pre = ∅ := by
    rcases List.eq_nil_or_concat pre with rfl | ⟨pre, e, rfl⟩
    · rfl
    · rw [List.concat_eq_append]
      exact since_concat_self (hall e (by simp))
  rw [hnil]
  exact Nat.pos_of_ne_zero (NeZero.ne cap)

theorem ofKey_filter {keep : ι → Bool} {o : Option κ} (h : ∀ i, key i = o → keep i = true) :
    ofKey key o (items.filter keep) = ofKey key o items := by
  rw [ofKey, ofKey, List.filter_filter]
  refine List.filter_congr fun i _ => ?_
  by_cases hi : key i = o
  · simp [hi, h i hi]
  · simp [hi]

theorem ofKey_concat_self {o : Option κ} (h : key i = o) :
    ofKey key o (items ++ [i]) = ofKey key o items ++ [i] := by
  rw [ofKey, List.filter_append, List.filter_singleton]
  simp [h, ofKey]

theorem ofKey_concat_of_ne {o : Option κ} (h : key i ≠ o) :
    ofKey key o (items ++ [i]) = ofKey key o items := by
  rw [ofKey, List.filter_append, List.filter_singleton]
  simp [h, ofKey]

end

/-! ### One cache for all keys -/

section
variable {w : Work ι κ ν ρ} {cap : Nat} [NeZero cap] [DecidableEq κ] {pre post items : List ι}
  {out : List (ι × ρ)} {c c' : LruCache κ ν cap} {i : ι} {r : ρ} {o : Option κ}
  {entry entry' : Option ν}

/-- The answers to the items of one key. -/
def answersOf (w : Work ι κ ν ρ) (o : Option κ) (out : List (ι × ρ)) : List (ι × ρ) :=
  out.filter fun x => w.key x.1 = o

/-- A run on one entry has answered the items of `o` in the same way, and the
cache has its entry unless it may have been pushed out. -/
structure Agrees (w : Work ι κ ν ρ) (o : Option κ) (pre : List ι) (out : List (ι × ρ))
    (c : LruCache κ ν cap) (entry : Option ν) : Prop where
  alone : run w.alone none (ofKey w.key o pre) = .ok (answersOf w o out, entry)
  absent : ∀ k, o = some k → entry = none → c.lookup k = none
  present : ∀ k v, o = some k → entry = some v → (since w.key k pre).card < cap →
    LruCache.Within (since w.key k pre) k v c

omit [NeZero cap] in
theorem agrees_nil (o : Option κ) :
    Agrees w o [] [] (LruCache.empty : LruCache κ ν cap) none :=
  ⟨rfl, fun _ _ _ => rfl, fun _ _ _ h => absurd h (Option.some_ne_none _).symm⟩

omit [NeZero cap] in
/-- The next item of a key finds its entry. -/
theorem Agrees.lookup (h : Agrees w o pre out c entry) {k : κ} (ho : o = some k)
    (hcard : (∃ j ∈ pre, w.key j = some k) → (since w.key k pre).card < cap) :
    c.lookup k = entry := by
  cases entry with
  | none => exact h.absent k ho rfl
  | some v =>
    have hex : ∃ j ∈ pre, w.key j = some k := by
      by_contra hno
      have hnil : ofKey w.key o pre = [] := List.filter_eq_nil_iff.mpr fun j hj => by
        simpa [ho] using fun hk => hno ⟨j, hj, hk⟩
      have halone := h.alone
      rw [hnil, run_nil] at halone
      cases (Prod.mk.inj (Except.ok.inj halone)).2
    exact (h.present k v ho rfl (hcard hex)).lookup

/-- An item panics as alone. -/
theorem Agrees.returns (h : Agrees w (w.key i) pre out c entry)
    (hcard : ∀ k, w.key i = some k → (∃ j ∈ pre, w.key j = some k) →
      (since w.key k pre).card < cap) : Returns (w.cached c i) ↔ Returns (w.alone entry i) := by
  cases hk : w.key i with
  | none =>
    rw [Work.cached_plain hk, Work.alone_plain hk]
    cases w.plain i <;> simp [Returns]
  | some k =>
    rw [Work.cached_keyed hk, Work.alone_keyed hk, h.lookup hk (hcard k hk)]
    cases w.keyed i entry <;> simp [Returns]

theorem answersOf_concat_self (h : w.key i = o) :
    answersOf w o (out ++ [(i, r)]) = answersOf w o out ++ [(i, r)] := by
  rw [answersOf, List.filter_append, List.filter_singleton]
  simp [h, answersOf]

theorem answersOf_concat_of_ne (h : w.key i ≠ o) :
    answersOf w o (out ++ [(i, r)]) = answersOf w o out := by
  rw [answersOf, List.filter_append, List.filter_singleton]
  simp [h, answersOf]

/-- The item's own key: alone it is answered in the same way. -/
theorem Agrees.self (h : Agrees w (w.key i) pre out c entry)
    (hcard : ∀ k, w.key i = some k → (∃ j ∈ pre, w.key j = some k) →
      (since w.key k pre).card < cap) (hi : w.cached c i = .ok (r, c')) :
    ∃ entry', Agrees w (w.key i) (pre ++ [i]) (out ++ [(i, r)]) c' entry' := by
  have hrun : ∀ {entry'}, w.alone entry i = .ok (r, entry') →
      run w.alone none (ofKey w.key (w.key i) (pre ++ [i])) =
        .ok (answersOf w (w.key i) (out ++ [(i, r)]), entry') := by
    intro entry' ha
    rw [ofKey_concat_self rfl, answersOf_concat_self rfl]
    exact run_concat h.alone ha
  cases hk : w.key i with
  | none =>
    rw [hk] at hrun
    rw [Work.cached_plain hk, bind_eq_ok] at hi
    obtain ⟨_, hp, hi⟩ := hi
    cases hi
    have ha : w.alone entry i = .ok (r, entry) := by
      rw [Work.alone_plain hk, hp]
      rfl
    refine ⟨entry, hrun ha, ?_, ?_⟩
    · intro k ho
      cases ho
    · intro k v ho
      cases ho
  | some k =>
    rw [hk] at hrun
    rw [Work.cached_keyed hk, h.lookup hk (hcard k hk), bind_eq_ok] at hi
    obtain ⟨⟨s, v, taken⟩, hx, hi⟩ := hi
    cases hi
    have ha : w.alone entry i = .ok (s, if taken then none else some v) := by
      rw [Work.alone_keyed hk, hx]
      rfl
    refine ⟨_, hrun ha, ?_, ?_⟩
    · rintro _ ⟨⟩ hnone
      cases taken with
      | false => cases hnone
      | true => exact LruCache.lookup_pop_self k _
    · rintro _ v' ⟨⟩ hsome _
      cases taken with
      | true => cases hsome
      | false =>
        cases hsome
        rw [since_concat_self hk]
        exact LruCache.within_put_self k v c

theorem lookup_cached_of_none {k : κ} (hne : w.key i ≠ some k) (hi : w.cached c i = .ok (r, c'))
    (h : c.lookup k = none) : c'.lookup k = none := by
  cases hk : w.key i with
  | none =>
    rw [Work.cached_plain hk, bind_eq_ok] at hi
    obtain ⟨_, _, hi⟩ := hi
    cases hi
    exact h
  | some j =>
    have hj : k ≠ j := fun he => hne (by rw [hk, he])
    rw [Work.cached_keyed hk, bind_eq_ok] at hi
    obtain ⟨⟨_, v, taken⟩, _, hi⟩ := hi
    cases hi
    have hput : (c.put j v).lookup k = none := by
      by_contra hsome
      obtain ⟨u, hu⟩ := Option.ne_none_iff_exists'.mp hsome
      rw [LruCache.lookup_put_of_ne hj hu] at h
      cases h
    cases taken with
    | false => exact hput
    | true => exact (LruCache.lookup_pop_of_ne hj _).trans hput

theorem within_cached {k : κ} {v : ν} (hne : w.key i ≠ some k) (hi : w.cached c i = .ok (r, c'))
    (h : LruCache.Within (since w.key k pre) k v c)
    (hcard : (since w.key k (pre ++ [i])).card < cap) :
    LruCache.Within (since w.key k (pre ++ [i])) k v c' := by
  cases hk : w.key i with
  | none =>
    rw [Work.cached_plain hk, bind_eq_ok] at hi
    obtain ⟨_, _, hi⟩ := hi
    cases hi
    rw [since_concat_none hk]
    exact h
  | some j =>
    have hj : j ≠ k := fun he => hne (by rw [hk, he])
    rw [since_concat_of_ne hk hj] at hcard ⊢
    rw [Work.cached_keyed hk, bind_eq_ok] at hi
    obtain ⟨⟨_, u, taken⟩, _, hi⟩ := hi
    cases hi
    cases taken with
    | false => exact h.put hj hcard u
    | true => exact (h.put hj hcard u).pop hj

theorem Agrees.other (h : Agrees w o pre out c entry) (ho : w.key i ≠ o)
    (hi : w.cached c i = .ok (r, c')) :
    Agrees w o (pre ++ [i]) (out ++ [(i, r)]) c' entry where
  alone := by
    rw [ofKey_concat_of_ne ho, answersOf_concat_of_ne ho]
    exact h.alone
  absent k hok hnone := lookup_cached_of_none (hok ▸ ho) hi (h.absent k hok hnone)
  present k v hok hsome hcard := by
    refine within_cached (hok ▸ ho) hi (h.present k v hok hsome ?_) hcard
    refine Nat.lt_of_le_of_lt (Finset.card_le_card ?_) hcard
    cases hk : w.key i with
    | none => rw [since_concat_none hk]
    | some j =>
      rw [since_concat_of_ne hk fun he => ho (by rw [hk, hok, he])]
      exact Finset.subset_insert _ _

/-- Each key has its answers, as far as a run has gone. -/
theorem Spaced.agrees (h : Spaced cap w.key items) (pre : List ι) :
    ∀ post, items = pre ++ post → ∀ out c, run w.cached LruCache.empty pre = .ok (out, c) →
      ∀ o, ∃ entry, Agrees w o pre out (c : LruCache κ ν cap) entry := by
  induction pre using List.reverseRecOn with
  | nil =>
    intro post _ out c hrun o
    cases hrun
    exact ⟨none, agrees_nil o⟩
  | append_singleton pre i ih =>
    intro post hitems out c hrun o
    rw [List.append_assoc] at hitems
    obtain ⟨out', c', r, hpre, hi, rfl⟩ := of_run_concat hrun
    obtain ⟨entry, ha⟩ := ih _ hitems out' c' hpre o
    by_cases ho : w.key i = o
    · subst ho
      exact ha.self (fun k hk => h _ i _ k hitems hk) hi
    · exact ⟨entry, ha.other ho hi⟩

/-- A run returns where the items of each key do alone. -/
theorem Spaced.returns (h : Spaced cap w.key items)
    (halone : ∀ o, Returns (run w.alone none (ofKey w.key o items))) (pre : List ι) :
    ∀ post, items = pre ++ post →
      Returns (run w.cached (LruCache.empty : LruCache κ ν cap) pre) := by
  induction pre using List.reverseRecOn with
  | nil => exact fun _ _ => returns_ok _
  | append_singleton pre i ih =>
    intro post hitems
    rw [List.append_assoc] at hitems
    obtain ⟨⟨out, c⟩, hpre⟩ := ih _ hitems
    obtain ⟨entry, ha⟩ := h.agrees pre _ hitems out c hpre (w.key i)
    have hsplit : ofKey w.key (w.key i) items =
        ofKey w.key (w.key i) (pre ++ [i]) ++ ofKey w.key (w.key i) post := by
      rw [hitems, ← List.append_assoc]
      exact List.filter_append ..
    obtain ⟨⟨_, _⟩, hrun⟩ := returns_of_append (hsplit ▸ halone (w.key i))
    rw [ofKey_concat_self rfl] at hrun
    obtain ⟨_, _, r, hrun', hi, _⟩ := of_run_concat hrun
    rw [ha.alone] at hrun'
    cases hrun'
    obtain ⟨⟨_, _⟩, hi'⟩ := (ha.returns fun k hk => h _ i _ k hitems hk).mpr ⟨_, hi⟩
    exact ⟨_, run_concat hpre hi'⟩

/-- Items that take no key from the others can go without them: those that
`keep` keeps, with all others of their key, are answered as before. -/
theorem Spaced.restrict (h : Spaced cap w.key items) (keep : ι → Bool)
    (hkeep : ∀ i j k, w.key i = some k → w.key j = some k → keep i = keep j) (pre : List ι) :
    ∀ post, items = pre ++ post → ∀ out (c : LruCache κ ν cap),
      run w.cached LruCache.empty pre = .ok (out, c) → ∃ c' : LruCache κ ν cap,
        run w.cached LruCache.empty (pre.filter keep) =
          .ok (out.filter (fun x => keep x.1), c') := by
  induction pre using List.reverseRecOn with
  | nil =>
    intro post _ out c hrun
    cases hrun
    exact ⟨LruCache.empty, rfl⟩
  | append_singleton pre i ih =>
    intro post hitems out c hrun
    rw [List.append_assoc] at hitems
    obtain ⟨out, c₁, r, hpre, hi, rfl⟩ := of_run_concat hrun
    obtain ⟨c₂, hpre'⟩ := ih _ hitems out c₁ hpre
    rw [List.filter_append, List.filter_append, List.filter_singleton, List.filter_singleton]
    cases hki : keep i with
    | false => exact ⟨c₂, by simpa using hpre'⟩
    | true =>
      suffices hcached : ∃ c', w.cached c₂ i = .ok (r, c') by
        obtain ⟨c', hcached⟩ := hcached
        exact ⟨c', run_concat hpre' hcached⟩
      cases hk : w.key i with
      | none =>
        rw [Work.cached_plain hk, bind_eq_ok] at hi
        obtain ⟨_, hp, hi⟩ := hi
        cases hi
        exact ⟨c₂, by rw [Work.cached_plain hk, hp]; rfl⟩
      | some k =>
        -- both caches still have the entry of `k`, and it is the same
        have hfilter : items.filter keep = pre.filter keep ++ i :: post.filter keep := by
          rw [hitems, List.filter_append, List.singleton_append, List.filter_cons_of_pos hki]
        obtain ⟨entry, ha⟩ := h.agrees pre _ hitems out c₁ hpre (some k)
        obtain ⟨entry', ha'⟩ := (h.filter hkeep).agrees _ _ hfilter _ c₂ hpre' (some k)
        have hsame : ofKey w.key (some k) (pre.filter keep) = ofKey w.key (some k) pre :=
          ofKey_filter fun j hj => (hkeep j i k hj hk).trans hki
        have hentry : entry' = entry := by
          have halone := ha'.alone
          rw [hsame, ha.alone] at halone
          exact (Prod.mk.inj (Except.ok.inj halone)).2.symm
        have hlookup := ha.lookup rfl (h _ i _ k hitems hk)
        have hlookup' := ha'.lookup rfl (h.filter hkeep _ i _ k hfilter hk)
        rw [Work.cached_keyed hk, hlookup, bind_eq_ok] at hi
        obtain ⟨⟨_, v, taken⟩, hx, hi⟩ := hi
        cases hi
        exact ⟨_, by rw [Work.cached_keyed hk, hlookup', hentry, hx]; rfl⟩

/-- **One cache is one cache for each key**: a run returns exactly when the items
of each key do alone, and then they have the same answers. -/
theorem Spaced.apart (h : Spaced cap w.key items) :
    (Returns (run w.cached (LruCache.empty : LruCache κ ν cap) items) ↔
      ∀ o, Returns (run w.cached (LruCache.empty : LruCache κ ν cap) (ofKey w.key o items))) ∧
    ∀ out (c : LruCache κ ν cap), run w.cached LruCache.empty items = .ok (out, c) →
      ∀ o, ∃ c' : LruCache κ ν cap,
        run w.cached LruCache.empty (ofKey w.key o items) = .ok (answersOf w o out, c') := by
  have hanswers : ∀ out (c : LruCache κ ν cap), run w.cached LruCache.empty items = .ok (out, c) →
      ∀ o, ∃ c' : LruCache κ ν cap,
        run w.cached LruCache.empty (ofKey w.key o items) = .ok (answersOf w o out, c') :=
    fun out c hrun o => h.restrict (fun i => w.key i = o)
      (fun i j k hi hj => by rw [hi, hj]) items [] (List.append_nil _).symm out c hrun
  refine ⟨⟨fun ⟨⟨out, c⟩, hrun⟩ o => ?_, fun hall => ?_⟩, hanswers⟩
  · obtain ⟨c', hrun'⟩ := hanswers out c hrun o
    exact ⟨_, hrun'⟩
  · refine h.returns (fun o => ?_) items [] (List.append_nil _).symm
    obtain ⟨⟨out, c⟩, hrun⟩ := hall o
    have hself : ofKey w.key o (ofKey w.key o items) = ofKey w.key o items :=
      (List.filter_filter ..).trans (by simp [ofKey])
    obtain ⟨entry, ha⟩ :=
      (spaced_ofKey o items).agrees _ [] (List.append_nil _).symm out c hrun o
    exact ⟨_, hself ▸ ha.alone⟩

section
variable {step : τ → ι → Exec (ρ × τ)} (f : LruCache κ ν cap → τ)
  (hstep : ∀ c i, step (f c) i = (do let y ← w.cached c i; pure (y.1, f y.2)))
include hstep

/-- The same of a machine with such a cache inside. -/
theorem Spaced.restrict_embed (h : Spaced cap w.key items) (keep : ι → Bool)
    (hkeep : ∀ i j k, w.key i = some k → w.key j = some k → keep i = keep j) {t : τ}
    (hrun : run step (f LruCache.empty) items = .ok (out, t)) :
    ∃ t', run step (f LruCache.empty) (items.filter keep) =
      .ok (out.filter (fun x => keep x.1), t') := by
  rw [run_embed hstep, bind_eq_ok] at hrun
  obtain ⟨⟨all, c⟩, hrun, hout⟩ := hrun
  cases hout
  obtain ⟨c', hrun'⟩ := h.restrict keep hkeep items [] (List.append_nil _).symm all c hrun
  refine ⟨f c', ?_⟩
  rw [run_embed hstep, hrun']
  rfl

theorem Spaced.apart_embed (h : Spaced cap w.key items) :
    (Returns (run step (f LruCache.empty) items) ↔
      ∀ o, Returns (run step (f LruCache.empty) (ofKey w.key o items))) ∧
    ∀ out t, run step (f LruCache.empty) items = .ok (out, t) → ∀ o, ∃ t',
      run step (f LruCache.empty) (ofKey w.key o items) = .ok (answersOf w o out, t') := by
  have hreturns : ∀ is, Returns (run step (f LruCache.empty) is) ↔
      Returns (run w.cached (LruCache.empty : LruCache κ ν cap) is) := by
    intro is
    rw [run_embed hstep]
    cases run w.cached (LruCache.empty : LruCache κ ν cap) is <;> simp [Returns]
  refine ⟨(hreturns items).trans (h.apart.1.trans (forall_congr' fun o => (hreturns _).symm)), ?_⟩
  intro out t hrun o
  exact h.restrict_embed f hstep (fun i => w.key i = o)
    (fun i j k hi hj => by rw [hi, hj]) hrun

end

end

end Keyed
