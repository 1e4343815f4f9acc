import Mathlib.Algebra.GroupWithZero.Nat
import Mathlib.Data.List.AList
import Mathlib.Data.Finset.Card
import Mathlib.Data.Finset.Insert

/-!
# A cache that forgets the least recently used key

`LruCache κ ν cap` holds at most `cap` keys, most recently used first.  `put`
and `getMut` make their key the most recent one, and `put` of a new key on a
full cache forgets the last one.  A mutable borrow is a value together with
its put-back: `getMut k` answers the value under `k` and the function that
writes a new one.

`Within D k v` says that `k` holds `v` and that every key used more recently
lies in `D`.  It is how long an entry is safe: `Within.put` keeps it while `D`
and the keys used since number fewer than `cap`, so an entry survives any work
on fewer than `cap` other keys (`Within.lookup`).
-/

universe u v

/-- At most `cap` entries, the most recently used first. -/
structure LruCache (κ : Type u) (ν : Type v) (cap : Nat) where
  entries : AList (fun _ : κ => ν)
  bounded : entries.entries.length ≤ cap

namespace LruCache

variable {κ : Type u} {ν : Type v} {cap : Nat}

/-- The cache with nothing in it. -/
def empty : LruCache κ ν cap := ⟨∅, Nat.zero_le _⟩

/-! ### Room for a key -/

/-- The entries without the least recently used one. -/
def evict (s : AList (fun _ : κ => ν)) : AList (fun _ : κ => ν) :=
  ⟨s.entries.dropLast, s.nodupKeys.sublist (List.dropLast_sublist _)⟩

theorem entries_evict (s : AList (fun _ : κ => ν)) : (evict s).entries = s.entries.dropLast := rfl

variable [DecidableEq κ]

def lookup (k : κ) (c : LruCache κ ν cap) : Option ν := c.entries.lookup k

@[simp] theorem lookup_empty (k : κ) : (empty : LruCache κ ν cap).lookup k = none := rfl

/-- The entries once there is room for `k`: a new key on a full cache costs the
last entry. -/
def makeRoom (k : κ) (c : LruCache κ ν cap) : AList (fun _ : κ => ν) :=
  if k ∈ c.entries ∨ c.entries.entries.length < cap then c.entries else evict c.entries

theorem makeRoom_of_mem {k : κ} {c : LruCache κ ν cap} (h : k ∈ c.entries) :
    makeRoom k c = c.entries := if_pos (.inl h)

theorem makeRoom_sublist (k : κ) (c : LruCache κ ν cap) :
    (makeRoom k c).entries.Sublist c.entries.entries := by
  unfold makeRoom
  split
  · exact List.Sublist.refl _
  · exact List.dropLast_sublist _

theorem length_insert_makeRoom [NeZero cap] (k : κ) (v : ν) (c : LruCache κ ν cap) :
    ((makeRoom k c).insert k v).entries.length ≤ cap := by
  have hpos : 0 < cap := Nat.pos_of_ne_zero (NeZero.ne cap)
  have hb := c.bounded
  rw [AList.entries_insert, List.length_cons]
  by_cases hk : k ∈ c.entries
  · obtain ⟨w, l₁, l₂, _, h₁, h₂⟩ := List.exists_of_kerase (AList.mem_keys.mp hk)
    rw [makeRoom_of_mem hk, h₂]
    rw [h₁] at hb
    simp only [List.length_append, List.length_cons] at hb ⊢
    omega
  · have hle : ∀ l : List (Σ _ : κ, ν), (l.kerase k).length ≤ l.length :=
      fun l => (List.kerase_sublist k l).length_le
    by_cases hlt : c.entries.entries.length < cap
    · rw [makeRoom, if_pos (.inr hlt)]
      exact Nat.lt_of_le_of_lt (hle _) hlt
    · rw [makeRoom, if_neg (by simp [hk, hlt]), entries_evict]
      have := hle c.entries.entries.dropLast
      rw [List.length_dropLast] at this
      omega

/-! ### The operations -/

/-- `put`: write `v` under `k`, which becomes the most recent key. -/
def put [NeZero cap] (k : κ) (v : ν) (c : LruCache κ ν cap) : LruCache κ ν cap :=
  ⟨(makeRoom k c).insert k v, length_insert_makeRoom k v c⟩

/-- `get_mut`: the value under `k` and the write through its borrow. -/
def getMut [NeZero cap] (k : κ) (c : LruCache κ ν cap) :
    Option (ν × (ν → LruCache κ ν cap)) :=
  (c.lookup k).map fun v => (v, fun v' => c.put k v')

/-- `pop`: take the entry of `k` out. -/
def pop (k : κ) (c : LruCache κ ν cap) : Option ν × LruCache κ ν cap :=
  (c.lookup k, ⟨c.entries.erase k, (List.kerase_sublist k _).length_le.trans c.bounded⟩)

theorem mem_entries_of_lookup {k : κ} {v : ν} {c : LruCache κ ν cap} (h : c.lookup k = some v) :
    k ∈ c.entries := AList.lookup_isSome.mp (by rw [lookup] at h; rw [h]; rfl)

theorem lookup_of_mem_entries {k : κ} {v : ν} {c : LruCache κ ν cap}
    (h : ⟨k, v⟩ ∈ c.entries.entries) : c.lookup k = some v := AList.mem_lookup_iff.mpr h

@[simp] theorem lookup_put_self [NeZero cap] (k : κ) (v : ν) (c : LruCache κ ν cap) :
    (c.put k v).lookup k = some v := AList.lookup_insert _

/-- After `put` the key is in front of the others, as many as there is room for. -/
theorem entries_put [NeZero cap] (k : κ) (v : ν) (c : LruCache κ ν cap) :
    (c.put k v).entries.entries = ⟨k, v⟩ :: (c.entries.entries.kerase k).take (cap - 1) := by
  have hb := c.bounded
  rw [put, AList.entries_insert, List.cons.injEq]
  refine ⟨rfl, ?_⟩
  by_cases hk : k ∈ c.entries
  · obtain ⟨w, l₁, l₂, _, h₁, h₂⟩ := List.exists_of_kerase (AList.mem_keys.mp hk)
    rw [makeRoom_of_mem hk, List.take_of_length_le]
    rw [h₁] at hb
    rw [h₂]
    simp only [List.length_append, List.length_cons] at hb ⊢
    omega
  · have hall : c.entries.entries.kerase k = c.entries.entries := List.kerase_of_notMem_keys hk
    rw [hall]
    by_cases hlt : c.entries.entries.length < cap
    · rw [makeRoom, if_pos (.inr hlt), hall, List.take_of_length_le (by omega)]
    · have hlen : c.entries.entries.length = cap := by omega
      have hlast : k ∉ c.entries.entries.dropLast.keys := fun hm =>
        hk (((List.dropLast_sublist _).map Sigma.fst).subset hm)
      rw [makeRoom, if_neg (by simp [hk, hlt]), entries_evict, List.kerase_of_notMem_keys hlast,
        List.dropLast_eq_take, hlen]

theorem entries_pop_put [NeZero cap] (k : κ) (v : ν) (c : LruCache κ ν cap) :
    ((c.put k v).pop k).2.entries.entries = (c.entries.entries.kerase k).take (cap - 1) := by
  show (c.put k v).entries.entries.kerase k = _
  rw [entries_put]
  exact List.kerase_cons_eq (a := k) rfl

theorem lookup_put_of_ne [NeZero cap] {j k : κ} {v w : ν} {c : LruCache κ ν cap} (hj : j ≠ k)
    (h : (c.put k v).lookup j = some w) : c.lookup j = some w := by
  have h' : (makeRoom k c).lookup j = some w := by
    rwa [lookup, put, AList.lookup_insert_ne hj] at h
  exact lookup_of_mem_entries ((makeRoom_sublist k c).subset (AList.mem_lookup_iff.mp h'))

/-- To put again what is there changes no entry, only which is the most
recent one. -/
theorem lookup_put_of_lookup [NeZero cap] {k : κ} {v : ν} {c : LruCache κ ν cap}
    (h : c.lookup k = some v) (j : κ) : (c.put k v).lookup j = c.lookup j := by
  by_cases hj : j = k
  · rw [hj, lookup_put_self, h]
  · rw [lookup, put, AList.lookup_insert_ne hj, makeRoom_of_mem (mem_entries_of_lookup h), lookup]

@[simp] theorem put_put [NeZero cap] (k : κ) (v w : ν) (c : LruCache κ ν cap) :
    (c.put k v).put k w = c.put k w := by
  have h : k ∈ (c.put k v).entries := mem_entries_of_lookup (lookup_put_self k v c)
  have : (makeRoom k (c.put k v)).insert k w = (makeRoom k c).insert k w := by
    rw [makeRoom_of_mem h]
    exact AList.insert_insert _
  simp only [put] at this ⊢
  simp only [this]

@[simp] theorem pop_fst (k : κ) (c : LruCache κ ν cap) : (c.pop k).1 = c.lookup k := rfl

@[simp] theorem lookup_pop_self (k : κ) (c : LruCache κ ν cap) : (c.pop k).2.lookup k = none :=
  AList.lookup_erase k _

theorem lookup_pop_of_ne {j k : κ} (h : j ≠ k) (c : LruCache κ ν cap) :
    (c.pop k).2.lookup j = c.lookup j := AList.lookup_erase_ne h

@[simp] theorem getMut_eq_none [NeZero cap] {k : κ} {c : LruCache κ ν cap} :
    c.getMut k = none ↔ c.lookup k = none := by simp [getMut]

theorem getMut_of_lookup [NeZero cap] {k : κ} {v : ν} {c : LruCache κ ν cap}
    (h : c.lookup k = some v) : c.getMut k = some (v, fun v' => c.put k v') := by
  rw [getMut, h]
  rfl

@[simp] theorem getMut_put_self [NeZero cap] (k : κ) (v : ν) (c : LruCache κ ν cap) :
    (c.put k v).getMut k = some (v, fun v' => c.put k v') := by
  rw [getMut_of_lookup (lookup_put_self k v c)]
  simp only [put_put]

/-! ### How long an entry is safe -/

/-- `k` holds `v`, and every key used more recently than `k` is in `D`. -/
def Within (D : Finset κ) (k : κ) (v : ν) (c : LruCache κ ν cap) : Prop :=
  ∃ newer older, c.entries.entries = newer ++ ⟨k, v⟩ :: older ∧ ∀ e ∈ newer, e.1 ∈ D

omit [DecidableEq κ] in
theorem Within.mono {D E : Finset κ} {k : κ} {v : ν} {c : LruCache κ ν cap}
    (h : Within D k v c) (hDE : D ⊆ E) : Within E k v c := by
  obtain ⟨newer, older, he, hn⟩ := h
  exact ⟨newer, older, he, fun e hm => hDE (hn e hm)⟩

theorem Within.lookup {D : Finset κ} {k : κ} {v : ν} {c : LruCache κ ν cap}
    (h : Within D k v c) : c.lookup k = some v := by
  obtain ⟨newer, older, he, _⟩ := h
  exact lookup_of_mem_entries (by rw [he]; simp)

/-- A key just put is the most recent one. -/
theorem within_put_self [NeZero cap] (k : κ) (v : ν) (c : LruCache κ ν cap) :
    Within ∅ k v (c.put k v) :=
  ⟨[], (makeRoom k c).entries.kerase k, AList.entries_insert, fun e he => by simp at he⟩

/-- The keys ahead of `k` are fewer than those of `D` once one of `D` is missing. -/
theorem length_newer_lt {D : Finset κ} {j k : κ} {v : ν} {s : AList (fun _ : κ => ν)}
    {newer older : List (Σ _ : κ, ν)} (he : s.entries = newer ++ ⟨k, v⟩ :: older)
    (hn : ∀ e ∈ newer, e.1 ∈ D) (hj : j ∉ s) : newer.length < (insert j D).card := by
  have hnd : (newer.map Sigma.fst).Nodup := by
    have := s.nodupKeys
    rw [he, List.NodupKeys, List.keys, List.map_append] at this
    exact (List.nodup_append.mp this).1
  have hjn : j ∉ newer.map Sigma.fst := fun hm => hj (by
    rw [AList.mem_keys, AList.keys, he, List.keys, List.map_append]
    exact List.mem_append_left _ hm)
  have hsub : (j :: newer.map Sigma.fst).toFinset ⊆ insert j D := by
    intro x hx
    rcases List.mem_cons.mp (List.mem_toFinset.mp hx) with rfl | hx
    · exact Finset.mem_insert_self _ _
    · obtain ⟨e, hem, rfl⟩ := List.mem_map.mp hx
      exact Finset.mem_insert_of_mem (hn e hem)
  have hcard := Finset.card_le_card hsub
  rw [List.toFinset_card_of_nodup (List.nodup_cons.mpr ⟨hjn, hnd⟩), List.length_cons,
    List.length_map] at hcard
  exact hcard

theorem within_kerase {D : Finset κ} {j k : κ} {v : ν} {newer : List (Σ _ : κ, ν)}
    (older : List (Σ _ : κ, ν)) (hj : j ≠ k) (hn : ∀ e ∈ newer, e.1 ∈ D) :
    ∃ newer' older', (newer ++ ⟨k, v⟩ :: older).kerase j = newer' ++ ⟨k, v⟩ :: older' ∧
      ∀ e ∈ newer', e.1 ∈ D := by
  by_cases hm : j ∈ newer.keys
  · refine ⟨newer.kerase j, older, List.kerase_append_left hm, fun e he => hn e ?_⟩
    exact (List.kerase_sublist j newer).subset he
  · refine ⟨newer, older.kerase j, ?_, hn⟩
    rw [List.kerase_append_right hm, List.kerase_cons_ne hj]

/-- **Work on another key keeps an entry**, as long as the keys used since its
last use are fewer than the cache holds. -/
theorem Within.put [NeZero cap] {D : Finset κ} {j k : κ} {v : ν} {c : LruCache κ ν cap}
    (h : Within D k v c) (hj : j ≠ k) (hcard : (insert j D).card < cap) (w : ν) :
    Within (insert j D) k v (c.put j w) := by
  obtain ⟨newer, older, he, hn⟩ := h
  have hroom : ∃ older', (makeRoom j c).entries = newer ++ ⟨k, v⟩ :: older' := by
    by_cases hin : j ∈ c.entries ∨ c.entries.entries.length < cap
    · exact ⟨older, by rw [makeRoom, if_pos hin, he]⟩
    · rw [not_or] at hin
      -- the cache is full and `j` is new: the entry that goes is behind `k`
      have hlt := length_newer_lt he hn hin.1
      have hlen := congrArg List.length he
      rw [List.length_append, List.length_cons] at hlen
      have hne : older ≠ [] := by
        intro h0
        rw [h0, List.length_nil] at hlen
        omega
      refine ⟨older.dropLast, ?_⟩
      rw [makeRoom, if_neg (not_or.mpr hin), entries_evict, he,
        List.dropLast_append_of_ne_nil (List.cons_ne_nil _ _), List.dropLast_cons_of_ne_nil hne]
  obtain ⟨older', hr⟩ := hroom
  obtain ⟨newer', older'', hk, hn'⟩ := within_kerase (v := v) older' hj hn
  refine ⟨⟨j, w⟩ :: newer', older'', ?_, ?_⟩
  · rw [LruCache.put, AList.entries_insert, hr, hk]
    rfl
  · intro e hem
    rcases List.mem_cons.mp hem with rfl | hem
    · exact Finset.mem_insert_self _ _
    · exact Finset.mem_insert_of_mem (hn' e hem)

theorem Within.pop {D : Finset κ} {j k : κ} {v : ν} {c : LruCache κ ν cap}
    (h : Within D k v c) (hj : j ≠ k) : Within D k v (c.pop j).2 := by
  obtain ⟨newer, older, he, hn⟩ := h
  obtain ⟨newer', older', hk, hn'⟩ := within_kerase (v := v) older hj hn
  refine ⟨newer', older', ?_, hn'⟩
  rw [← hk, ← he]
  rfl

end LruCache
