import Mathlib.Algebra.GroupWithZero.Nat
import SlpServer.Lib.Rust

/-!
# Cutting a list into pieces and laying the pieces back

`chunk m xs j` is the `j`-th piece of length `m` of `xs`, the last one shorter.
Laid end to end the first `n` pieces are `xs.take (n * m)` (`flatten_chunks`),
and written one after the other into a buffer as long as `xs`, each at its own
offset, they leave the buffer equal to `xs` that far (`writeRange_chunk`).
-/

namespace Tiling

open Rust

variable {α : Type}

/-- The `j`-th piece of length `m`. -/
def chunk (m : Nat) (xs : List α) (j : Nat) : List α := (xs.drop (j * m)).take m

theorem length_chunk (m : Nat) (xs : List α) (j : Nat) :
    (chunk m xs j).length = min m (xs.length - j * m) := by
  rw [chunk, List.length_take, List.length_drop]

/-- The number of pieces. -/
def pieces (m : Nat) (xs : List α) : Nat := (xs.length + m - 1) / m

theorem length_le_pieces_mul {m : Nat} (hm : 0 < m) (xs : List α) :
    xs.length ≤ pieces m xs * m := by
  have h := Nat.div_add_mod (xs.length + m - 1) m
  have hlt := Nat.mod_lt (xs.length + m - 1) hm
  rw [pieces, Nat.mul_comm]
  omega

theorem mul_lt_length {m : Nat} (hm : 0 < m) {xs : List α} {j : Nat} (hj : j < pieces m xs) :
    j * m < xs.length := by
  have h := Nat.div_mul_le_self (xs.length + m - 1) m
  have hle : (j + 1) * m ≤ pieces m xs * m := Nat.mul_le_mul_right m hj
  rw [pieces] at hle
  rw [Nat.add_mul, Nat.one_mul] at hle
  omega

/-- End to end, the first `n` pieces are the first `n * m` elements. -/
theorem flatten_chunks (m : Nat) (xs : List α) (n : Nat) :
    ((List.range n).map (chunk m xs)).flatten = xs.take (n * m) := by
  induction n with
  | zero => simp
  | succ n ih =>
    rw [List.range_succ, List.map_append, List.flatten_append, ih, Nat.add_mul, Nat.one_mul,
      List.take_add]
    simp [chunk]

theorem sum_length_chunks {m : Nat} (hm : 0 < m) (xs : List α) :
    ((List.range (pieces m xs)).map fun j => (chunk m xs j).length).sum = xs.length := by
  have h := congrArg List.length (flatten_chunks m xs (pieces m xs))
  rw [List.length_flatten, List.map_map, List.length_take,
    Nat.min_eq_right (length_le_pieces_mul hm xs)] at h
  exact h

/-- A buffer that holds the first `n` elements of `xs` and filler behind them. -/
def filled (z : α) (xs : List α) (n : Nat) : List α :=
  xs.take n ++ List.replicate (xs.length - n) z

@[simp] theorem length_filled (z : α) (xs : List α) (n : Nat) :
    (filled z xs n).length = xs.length := by
  rw [filled, List.length_append, List.length_take, List.length_replicate]
  omega

theorem filled_zero (z : α) (xs : List α) : filled z xs 0 = List.replicate xs.length z := by
  simp [filled]

theorem filled_of_le (z : α) {xs : List α} {n : Nat} (h : xs.length ≤ n) : filled z xs n = xs := by
  rw [filled, List.take_of_length_le h, Nat.sub_eq_zero_of_le h]
  simp

/-- **Writing a piece at its offset moves the filled part one piece on.** -/
theorem writeRange_chunk {m : Nat} (z : α) {xs : List α} {j : Nat} (hj : j * m < xs.length) :
    writeRange (filled z xs (j * m)) (j * m) (chunk m xs j) = filled z xs ((j + 1) * m) := by
  have hlen := length_chunk m xs j
  have htake : (filled z xs (j * m)).take (j * m) = xs.take (j * m) := by
    rw [filled, List.take_append_of_le_length (by rw [List.length_take]; omega), List.take_take,
      Nat.min_self]
  have hdrop : (filled z xs (j * m)).drop (j * m + (chunk m xs j).length) =
      List.replicate (xs.length - (j + 1) * m) z := by
    rw [filled, List.drop_append, List.drop_of_length_le (by rw [List.length_take]; omega),
      List.nil_append, List.drop_replicate, List.length_take, hlen, Nat.add_mul, Nat.one_mul]
    congr 1
    omega
  rw [writeRange, htake, hdrop, filled, Nat.add_mul, Nat.one_mul, List.take_add]
  rfl

end Tiling
