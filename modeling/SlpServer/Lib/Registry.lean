import Mathlib.Data.List.Forall2
import Mathlib.Data.List.Nodup
import Mathlib.Data.List.Perm.Basic

/-!
# A registry

Things with a key each, at most one of a key, in no order of their own: a hash
map whose values know their keys.  `entry` looks one up and does not depend on
the order (`entry_perm`), `register` puts one in for the one of its key, and
where all are replaced, each by one of its key, so are the entries
(`entry_forall₂`).
-/

namespace Registry

variable {α κ : Type*} [DecidableEq κ] {key : α → κ} {k : κ} {x : α} {xs ys : List α}

/-- The one with the key `k`. -/
def entry (key : α → κ) (k : κ) (xs : List α) : Option α := xs.find? fun x => key x = k

/-- `x` goes in, and the one of its key out. -/
def register (key : α → κ) (x : α) (xs : List α) : List α :=
  x :: xs.filter fun y => key y ≠ key x

theorem key_of_entry (h : entry key k xs = some x) : key x = k := by
  simpa using List.find?_some h

theorem entry_cons (key : α → κ) (k : κ) (x : α) (xs : List α) :
    entry key k (x :: xs) = if key x = k then some x else entry key k xs := by
  unfold entry
  by_cases h : key x = k <;> simp [h]

theorem entry_eq_some_iff (h : (xs.map key).Nodup) :
    entry key k xs = some x ↔ x ∈ xs ∧ key x = k := by
  induction xs with
  | nil => simp [entry]
  | cons y xs ih =>
    obtain ⟨hy, hxs⟩ := List.nodup_cons.mp h
    rw [entry_cons]
    split
    · rename_i hkey
      constructor
      · rintro ⟨⟩
        exact ⟨List.mem_cons_self, hkey⟩
      · rintro ⟨hx, hk⟩
        rcases List.mem_cons.mp hx with rfl | hx
        · rfl
        · exact absurd (List.mem_map.mpr ⟨x, hx, hk.trans hkey.symm⟩) hy
    · rename_i hkey
      rw [ih hxs, List.mem_cons]
      constructor
      · exact fun ⟨hx, hk⟩ => ⟨.inr hx, hk⟩
      · rintro ⟨rfl | hx, hk⟩
        · exact absurd hk hkey
        · exact ⟨hx, hk⟩

/-- The order does not matter. -/
theorem entry_perm (hnodup : (xs.map key).Nodup) (h : xs.Perm ys) (k : κ) :
    entry key k xs = entry key k ys := by
  refine Option.ext fun x => ?_
  rw [entry_eq_some_iff hnodup, entry_eq_some_iff ((h.map key).nodup_iff.mp hnodup), h.mem_iff]

theorem entry_register (key : α → κ) (k : κ) (x : α) (xs : List α) :
    entry key k (register key x xs) = if key x = k then some x else entry key k xs := by
  rw [register, entry_cons]
  split
  · rfl
  · rename_i hne
    rw [entry, List.find?_filter]
    congr 1
    funext y
    by_cases hy : key y = k
    · simp [hy, Ne.symm hne]
    · simp [hy]

theorem nodup_register (h : (xs.map key).Nodup) (x : α) :
    ((register key x xs).map key).Nodup := by
  rw [register, List.map_cons, List.nodup_cons]
  refine ⟨?_, ?_⟩
  · rintro hmem
    obtain ⟨y, hy, hkey⟩ := List.mem_map.mp hmem
    simp [hkey] at hy
  · exact h.sublist (List.filter_sublist.map key)

/-! ### All entries at once -/

section
variable {R : α → α → Prop} (hkey : ∀ x y, R x y → key y = key x)
include hkey

omit [DecidableEq κ] in
theorem map_key_forall₂ (h : List.Forall₂ R xs ys) : ys.map key = xs.map key := by
  induction h with
  | nil => rfl
  | cons hxy _ ih => rw [List.map_cons, List.map_cons, hkey _ _ hxy, ih]

theorem entry_forall₂ (h : List.Forall₂ R xs ys) (k : κ) :
    Option.Rel R (entry key k xs) (entry key k ys) := by
  induction h with
  | nil => exact .none
  | cons hxy _ ih =>
    rw [entry_cons, entry_cons, hkey _ _ hxy]
    split
    · exact .some hxy
    · exact ih

end

end Registry
