import SlpServer.Slp.Slots

/-!
# What the reassembler keeps

The representation invariant of `FragParser`, over runs that do not panic: how
many entries there are, which frame each was made by and how long that made it,
what its slots hold, and that some slot of it is empty, if it has any.

An entry goes back to one frame of the run (`MadeBy`): there was none under its
key before that frame, and there has been one ever since.
-/

namespace SlpServer

open Rust

namespace FragParser

/-- There is an entry of the key once the frames have been processed. -/
def HasEntry (k : FragParserKey) (fs : List Ipv4Frag) : Prop :=
  ∃ s list, new.run fs = .ok s ∧ s.cache.lookup k = some list

/-- The entry of the key was made by frame `f`, and has been there since. -/
def MadeBy (fs : List Ipv4Frag) (k : FragParserKey) (f : Ipv4Frag) : Prop :=
  ∃ pre post, fs = pre ++ f :: post ∧ f.item.key = k ∧ ¬ HasEntry k pre ∧
    ∀ post', post' <+: post → HasEntry k (pre ++ f :: post')

theorem run_concat {s s₂ : FragParser} {fs : List Ipv4Frag} {f : Ipv4Frag}
    (h : s.run (fs ++ [f]) = .ok s₂) :
    ∃ s₁ r, s.run fs = .ok s₁ ∧ s₁.process f = .ok (r, s₂) := by
  rw [run, List.foldlM_append, bind_eq_ok] at h
  obtain ⟨s₁, hs₁, hf⟩ := h
  simp only [List.foldlM_cons, List.foldlM_nil, bind_eq_ok] at hf
  obtain ⟨_, ⟨x, hx, ⟨⟩⟩, ⟨⟩⟩ := hf
  exact ⟨s₁, x.1, hs₁, hx⟩

theorem hasEntry_iff {fs : List Ipv4Frag} {s : FragParser} (hs : new.run fs = .ok s)
    (k : FragParserKey) : HasEntry k fs ↔ (s.cache.lookup k).isSome = true := by
  rw [Option.isSome_iff_exists]
  constructor
  · rintro ⟨t, list, ht, hl⟩
    rw [hs] at ht
    cases ht
    exact ⟨list, hl⟩
  · rintro ⟨list, hl⟩
    exact ⟨s, list, hs, hl⟩

theorem madeBy_new {fs : List Ipv4Frag} {s : FragParser} (hs : new.run fs = .ok s) {f : Ipv4Frag}
    (hnone : s.cache.lookup f.item.key = none) (hentry : HasEntry f.item.key (fs ++ [f])) :
    MadeBy (fs ++ [f]) f.item.key f := by
  refine ⟨fs, [], rfl, rfl, ?_, ?_⟩
  · rw [hasEntry_iff hs, hnone]
    exact Bool.false_ne_true
  · intro post' hpost'
    rw [List.prefix_nil.mp hpost']
    exact hentry

theorem MadeBy.concat {fs : List Ipv4Frag} {k : FragParserKey} {g : Ipv4Frag}
    (h : MadeBy fs k g) {f : Ipv4Frag} (hentry : HasEntry k (fs ++ [f])) :
    MadeBy (fs ++ [f]) k g := by
  obtain ⟨pre, post, rfl, hk, hbefore, hsince⟩ := h
  refine ⟨pre, post ++ [f], by simp, hk, hbefore, ?_⟩
  intro post' hpost'
  rcases List.prefix_concat_iff.mp hpost' with rfl | hpost'
  · simpa using hentry
  · exact hsince post' hpost'

/-- Each list goes back to a frame of its length. -/
def Sized (fs : List Ipv4Frag) (k : FragParserKey) (list : Slots) : Prop :=
  ∃ f, MadeBy fs k f ∧ list.length = f.item.totalPart.toNat

/-- One frame leaves each list it does not take out with the frame that made
it. -/
theorem sized_concat {fs : List Ipv4Frag} {s s' : FragParser} {f : Ipv4Frag} {r : Option Packet}
    (hs : new.run fs = .ok s) (h : ListsAll (Sized fs) s) (hf : s.process f = .ok (r, s')) :
    ListsAll (Sized (fs ++ [f])) s' := by
  have hrun := run_snoc hs hf
  have hentry {k : FragParserKey} {list : Slots} (hl : s'.cache.lookup k = some list) :
      HasEntry k (fs ++ [f]) := ⟨s', list, hrun, hl⟩
  -- a list of the frame's own key is the one it was looked up in, of its length
  have hown {list : Slots} (hl : s'.cache.lookup f.item.key = some list)
      (hlen : list.length = (s.slotsFor f.item).length) : Sized (fs ++ [f]) f.item.key list := by
    cases hold : s.cache.lookup f.item.key with
    | some old =>
      obtain ⟨g, hg, hglen⟩ := h _ _ hold
      refine ⟨g, hg.concat (hentry hl), ?_⟩
      rw [hlen, slotsFor_of_lookup hold, hglen]
    | none =>
      refine ⟨f, madeBy_new hs hold (hentry hl), ?_⟩
      rw [hlen, slotsFor, hold]
      exact List.length_replicate
  have hother {k : FragParserKey} {list : Slots} (hl : s'.cache.lookup k = some list)
      (hold : s.cache.lookup k = some list) : Sized (fs ++ [f]) k list := by
    obtain ⟨g, hg, hglen⟩ := h _ _ hold
    exact ⟨g, hg.concat (hentry hl), hglen⟩
  have hstore {kept : Slots} (hs' : s' = s.store f.item kept)
      (hlen : kept.length = (s.slotsFor f.item).length) : ListsAll (Sized (fs ++ [f])) s' := by
    intro k list hl
    have hl' := hl
    rw [hs', store] at hl'
    by_cases hk : k = f.item.key
    · subst hk
      rw [LruCache.lookup_put_self] at hl'
      cases hl'
      exact hown hl hlen
    · exact hother hl (LruCache.lookup_put_of_ne hk hl')
  obtain ⟨_, _, hs'⟩ | ⟨_, _, _, hs'⟩ | ⟨_, _, _, hs'⟩ := process_cases hf
  · exact hstore hs' rfl
  · exact hstore hs' (List.length_set ..)
  · intro k list hl
    have hl' := hl
    rw [hs', forget] at hl'
    by_cases hk : k = f.item.key
    · rw [hk, LruCache.lookup_pop_self] at hl'
      cases hl'
    · rw [LruCache.lookup_pop_of_ne hk] at hl'
      exact hother hl (LruCache.lookup_put_of_ne hk hl')

/-- **Every list is as long as the frame that made it says.** -/
theorem sized_of_run {fs : List Ipv4Frag} {s : FragParser} (hs : new.run fs = .ok s) :
    ListsAll (Sized fs) s := by
  induction fs using List.reverseRecOn generalizing s with
  | nil =>
    cases hs
    exact listsAll_new _
  | append_singleton fs f ih =>
    obtain ⟨s₁, r, hs₁, hf⟩ := run_concat hs
    exact sized_concat hs₁ (ih hs₁) hf

/-- A list with slots has an empty one. -/
def Open (_k : FragParserKey) (list : Slots) : Prop := list ≠ [] → none ∈ list

theorem open_of_not_full {list : Slots} (h : ¬ Full list) (k : FragParserKey) : Open k list := by
  intro _
  by_contra hnone
  apply h
  intro o ho
  cases o with
  | none => exact absurd ho hnone
  | some i => rfl

theorem open_new (k : FragParserKey) (n : Nat) : Open k (List.replicate n none) := by
  intro hne
  rw [List.mem_replicate]
  refine ⟨?_, rfl⟩
  rintro rfl
  exact hne rfl

/-- **A completed list is never left in the cache.** -/
theorem open_of_run {fs : List Ipv4Frag} {s : FragParser} (hs : new.run fs = .ok s) :
    ListsAll Open s :=
  (listsAll_new Open).run (fun _ _ => open_new _ _)
    (fun _ _ _ _ _ hfull => open_of_not_full hfull _) hs

/-- The representation invariant, after the frames `fs`. -/
structure Represented (fs : List Ipv4Frag) (s : FragParser) : Prop where
  bounded : s.cache.entries.entries.length ≤ 50
  length_le : ∀ k list, s.cache.lookup k = some list → list.length ≤ 255
  madeBy : ∀ k list, s.cache.lookup k = some list →
    ∃ f, MadeBy fs k f ∧ list.length = f.item.totalPart.toNat
  placed : ∀ k list, s.cache.lookup k = some list → ∀ (j : Nat) (i : FragItem),
    list[j]? = some (some i) → i.part.toNat = j ∧ i.srcIp = k.1 ∧ i.id = k.2
  hasEmpty : ∀ k list, s.cache.lookup k = some list → list ≠ [] → none ∈ list

/-- **The representation invariant holds after every run** that does not panic. -/
theorem represented_of_run {fs : List Ipv4Frag} {s : FragParser} (hs : new.run fs = .ok s) :
    Represented fs s where
  bounded := s.cache.bounded
  length_le k list hl := by
    obtain ⟨f, _, hlen⟩ := sized_of_run hs k list hl
    rw [hlen]
    exact Nat.le_of_lt_succ f.item.totalPart.toNat_lt
  madeBy := sized_of_run hs
  placed k list hl j i hj := by
    obtain ⟨hkey, hpart⟩ := placed_of_run hs k list hl j i hj
    exact ⟨hpart, congrArg Prod.fst hkey, congrArg Prod.snd hkey⟩
  hasEmpty := open_of_run hs

/-- Another client's fragment stays, a repeated one overwrites, one that is out of
range is rejected, and the last completes its packet. -/
def busy : List Ipv4Frag :=
  [othersHalf, firstHalf, firstHalf, ⟨[10, 13, 37, 100, 10, 13, 37, 101, 0, 1, 10, 2, 0, 0, 0, 3],
    by decide⟩, secondHalf]

theorem represented_busy : ∃ s, new.run busy = .ok s ∧
    s.cache.lookup othersHalf.item.key = some [some othersHalf.item, none] ∧
    s.cache.lookup firstHalf.item.key = none ∧ Represented busy s := by
  have hrun : ∃ s, new.run busy = .ok s ∧
      s.cache.lookup othersHalf.item.key = some [some othersHalf.item, none] ∧
      s.cache.lookup firstHalf.item.key = none := ⟨_, rfl, rfl, rfl⟩
  obtain ⟨s, hs, hother, hfirst⟩ := hrun
  exact ⟨s, hs, hother, hfirst, represented_of_run hs⟩

end FragParser

end SlpServer
