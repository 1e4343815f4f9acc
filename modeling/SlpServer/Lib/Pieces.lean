import Mathlib.Algebra.GroupWithZero.Nat
import Mathlib.Data.Finset.Card
import Mathlib.Data.List.Nodup
import SlpServer.Lib.Rust

/-!
# Pieces written at their own offsets

A piece is some data and the offset it is to be written at; `place` writes a
list of pieces into a buffer, the first one first.  Pieces may overlap and may
leave gaps.

For pieces that lie inside the buffer and have as many elements as it has, to
leave a gap and to overlap is the same (`covered_of_apart`).  If they do
neither, the buffer is their concatenation exactly when each agrees with the
concatenation at its offset (`place_eq_concat_iff`), which they do when each
starts where the one before it ends (`InPlace`).
-/

namespace Pieces

open Rust

variable {α : Type}

structure Piece (α : Type) where
  start : Nat
  data : List α

/-- The piece is written over the position. -/
def Piece.Covers (p : Piece α) (x : Nat) : Prop := p.start ≤ x ∧ x < p.start + p.data.length

/-- Write the pieces one after the other. -/
def place (ps : List (Piece α)) (buffer : List α) : List α :=
  ps.foldl (fun b p => writeRange b p.start p.data) buffer

/-- All pieces lie inside a buffer of length `n`. -/
def Inside (n : Nat) (ps : List (Piece α)) : Prop := ∀ p ∈ ps, p.start + p.data.length ≤ n

/-- No position is written twice. -/
def Apart (ps : List (Piece α)) : Prop := ps.Pairwise fun p q => ∀ x, ¬ (p.Covers x ∧ q.Covers x)

/-- The pieces end to end. -/
def concat (ps : List (Piece α)) : List α := (ps.map Piece.data).flatten

theorem concat_cons (p : Piece α) (ps : List (Piece α)) :
    concat (p :: ps) = p.data ++ concat ps := by
  simp [concat]

/-! ### One write -/

theorem getElem?_writeRange_of_covers {xs : List α} {p : Piece α} {y : Nat}
    (h : p.start + p.data.length ≤ xs.length) (hy : y < p.data.length) :
    (writeRange xs p.start p.data)[p.start + y]? = p.data[y]? := by
  have hlen : (xs.take p.start).length = p.start := by
    rw [List.length_take]
    omega
  rw [writeRange, List.append_assoc, List.getElem?_append_right (by omega), hlen,
    Nat.add_sub_cancel_left, List.getElem?_append_left hy]

theorem getElem?_writeRange_of_not_covers {xs : List α} {p : Piece α} {x : Nat}
    (h : p.start + p.data.length ≤ xs.length) (hx : ¬ p.Covers x) :
    (writeRange xs p.start p.data)[x]? = xs[x]? := by
  have hlen : (xs.take p.start).length = p.start := by
    rw [List.length_take]
    omega
  rw [writeRange, List.append_assoc]
  by_cases hlt : x < p.start
  · rw [List.getElem?_append_left (by omega), List.getElem?_take, if_pos hlt]
  · have hge : p.start + p.data.length ≤ x := Nat.le_of_not_lt fun hc => hx ⟨by omega, hc⟩
    rw [List.getElem?_append_right (by omega), List.getElem?_append_right (by omega), hlen,
      List.getElem?_drop]
    congr 1
    omega

/-! ### All writes -/

theorem length_place {ps : List (Piece α)} {buffer : List α} (h : Inside buffer.length ps) :
    (place ps buffer).length = buffer.length := by
  induction ps generalizing buffer with
  | nil => rfl
  | cons p ps ih =>
    have hlen : (writeRange buffer p.start p.data).length = buffer.length :=
      length_writeRange (h p (by simp))
    have hrest : Inside (writeRange buffer p.start p.data).length ps := by
      rw [hlen]
      exact fun q hq => h q (by simp [hq])
    exact (ih hrest).trans hlen

theorem getElem?_place_of_not_covers {ps : List (Piece α)} {buffer : List α} {x : Nat}
    (h : Inside buffer.length ps) (hx : ∀ p ∈ ps, ¬ p.Covers x) :
    (place ps buffer)[x]? = buffer[x]? := by
  induction ps generalizing buffer with
  | nil => rfl
  | cons p ps ih =>
    have hp : p.start + p.data.length ≤ buffer.length := h p (by simp)
    have hrest : Inside (writeRange buffer p.start p.data).length ps := by
      rw [length_writeRange hp]
      exact fun q hq => h q (by simp [hq])
    exact (ih hrest fun q hq => hx q (by simp [hq])).trans
      (getElem?_writeRange_of_not_covers hp (hx p (by simp)))

/-- What one piece covers alone is that piece's. -/
theorem getElem?_place {ps : List (Piece α)} {buffer : List α} (h : Inside buffer.length ps)
    (hapart : Apart ps) {p : Piece α} (hp : p ∈ ps) {y : Nat} (hy : y < p.data.length) :
    (place ps buffer)[p.start + y]? = p.data[y]? := by
  induction ps generalizing buffer with
  | nil => cases hp
  | cons q ps ih =>
    obtain ⟨hq, hapart⟩ := List.pairwise_cons.mp hapart
    have hin : q.start + q.data.length ≤ buffer.length := h q (by simp)
    have hrest : Inside (writeRange buffer q.start q.data).length ps := by
      rw [length_writeRange hin]
      exact fun r hr => h r (by simp [hr])
    rcases List.mem_cons.mp hp with rfl | hp
    · have hkeep := getElem?_place_of_not_covers (x := p.start + y) hrest
        fun r hr hc => hq r hr _ ⟨⟨by omega, by omega⟩, hc⟩
      exact hkeep.trans (getElem?_writeRange_of_covers hin hy)
    · exact ih hrest hapart hp

/-! ### Gaps and overlaps -/

theorem mem_of_nodup {l : List Nat} {n : Nat} (hnodup : l.Nodup) (hbelow : ∀ x ∈ l, x < n)
    (hlength : l.length = n) {x : Nat} (hx : x < n) : x ∈ l := by
  have hsub : l.toFinset ⊆ Finset.range n := by
    intro y hy
    exact Finset.mem_range.mpr (hbelow y (List.mem_toFinset.mp hy))
  have hcard : (Finset.range n).card ≤ l.toFinset.card := by
    rw [Finset.card_range, List.toFinset_card_of_nodup hnodup, hlength]
  rw [← List.mem_toFinset, Finset.eq_of_subset_of_card_le hsub hcard]
  exact Finset.mem_range.mpr hx

/-- Pieces that do not overlap leave no gap in a buffer of their total
length. -/
theorem covered_of_apart {n : Nat} {ps : List (Piece α)} (h : Inside n ps) (hapart : Apart ps)
    (hsum : (ps.map fun p => p.data.length).sum = n) {x : Nat} (hx : x < n) :
    ∃ p ∈ ps, p.Covers x := by
  have hmem : ∀ x, x ∈ ps.flatMap (fun p => List.range' p.start p.data.length) ↔
      ∃ p ∈ ps, p.Covers x := by
    intro x
    rw [List.mem_flatMap]
    simp only [List.mem_range'_1]
    rfl
  rw [← hmem]
  -- the positions covered are as many as there are positions
  refine mem_of_nodup ?_ ?_ ?_ hx
  · rw [List.nodup_flatMap]
    refine ⟨fun p _ => List.nodup_range', hapart.imp ?_⟩
    intro p q hpq y hp hq
    exact hpq y ⟨List.mem_range'_1.mp hp, List.mem_range'_1.mp hq⟩
  · intro y hy
    obtain ⟨p, hp, hc⟩ := (hmem y).mp hy
    exact Nat.lt_of_lt_of_le hc.2 (h p hp)
  · rw [List.length_flatMap, ← hsum]
    simp

theorem length_concat (ps : List (Piece α)) :
    (concat ps).length = (ps.map fun p => p.data.length).sum := by
  rw [concat, List.length_flatten, List.map_map]
  rfl

/-- **Placed apart, the pieces are their concatenation exactly when each agrees
with it at its offset.** -/
theorem place_eq_concat_iff {ps : List (Piece α)} {buffer : List α}
    (h : Inside buffer.length ps) (hapart : Apart ps)
    (hlen : (concat ps).length = buffer.length) :
    place ps buffer = concat ps ↔
      ∀ p ∈ ps, ((concat ps).drop p.start).take p.data.length = p.data := by
  constructor
  · intro heq p hp
    apply List.ext_getElem?
    intro y
    by_cases hy : y < p.data.length
    · rw [List.getElem?_take, if_pos hy, List.getElem?_drop, ← heq, getElem?_place h hapart hp hy]
    · rw [List.getElem?_take, if_neg hy, List.getElem?_eq_none (by omega)]
  · intro hagree
    apply List.ext_getElem?
    intro x
    by_cases hx : x < buffer.length
    · obtain ⟨p, hp, hle, hlt⟩ := covered_of_apart h hapart (by rw [← length_concat, hlen]) hx
      obtain ⟨y, rfl⟩ := Nat.exists_eq_add_of_le hle
      have hy : y < p.data.length := by omega
      rw [getElem?_place h hapart hp hy, ← hagree p hp, List.getElem?_take, if_pos hy,
        List.getElem?_drop]
    · rw [List.getElem?_eq_none (by rw [length_place h]; omega),
        List.getElem?_eq_none (by omega)]

/-! ### Pieces in their places -/

/-- Each piece starts where the ones before it end, the first one at `n`.
Where an empty piece starts does not matter. -/
def InPlace : Nat → List (Piece α) → Prop
  | _, [] => True
  | n, p :: ps => (p.data ≠ [] → p.start = n) ∧ InPlace (n + p.data.length) ps

theorem Piece.Covers.ne_nil {p : Piece α} {x : Nat} (h : p.Covers x) : p.data ≠ [] := by
  rintro hnil
  have hlt := h.2
  have hle := h.1
  rw [hnil, List.length_nil] at hlt
  omega

theorem InPlace.le_of_covers {n : Nat} {ps : List (Piece α)} (h : InPlace n ps) {p : Piece α}
    (hp : p ∈ ps) {x : Nat} (hx : p.Covers x) : n ≤ x := by
  induction ps generalizing n with
  | nil => cases hp
  | cons q ps ih =>
    rcases List.mem_cons.mp hp with rfl | hp
    · rw [← h.1 hx.ne_nil]
      exact hx.1
    · exact Nat.le_trans (Nat.le_add_right _ _) (ih h.2 hp)

theorem InPlace.apart {n : Nat} {ps : List (Piece α)} (h : InPlace n ps) : Apart ps := by
  induction ps generalizing n with
  | nil => exact .nil
  | cons p ps ih =>
    refine List.pairwise_cons.mpr ⟨?_, ih h.2⟩
    rintro q hq x ⟨hx, hqx⟩
    have hle := h.2.le_of_covers hq hqx
    have hlt := hx.2
    rw [h.1 hx.ne_nil] at hlt
    omega

theorem InPlace.agrees {ps : List (Piece α)} {pre : List α} (h : InPlace pre.length ps)
    {p : Piece α} (hp : p ∈ ps) :
    ((pre ++ concat ps).drop p.start).take p.data.length = p.data := by
  induction ps generalizing pre with
  | nil => cases hp
  | cons q ps ih =>
    rw [concat_cons]
    rcases List.mem_cons.mp hp with rfl | hp
    · by_cases hnil : p.data = []
      · rw [hnil]
        simp
      · rw [h.1 hnil, List.drop_left, List.take_left]
    · rw [← List.append_assoc]
      exact ih (by rw [List.length_append]; exact h.2) hp

end Pieces
