import Mathlib.Data.List.Basic

/-!
# Zero-run encoding of bytes

A byte string in which a run of zeros is cut into chunks of at most 256: a
non-zero byte stands for itself, and a chunk of `c + 1` zeros is the pair
`0, c`.  An encoding is a list of chunks; `encode` writes it down and `expand`
says what it stands for.  Different lists may stand for the same string, since
a run can be cut in more than one way.

`chunks` reads an encoding.  What it does not read is an encoding followed by a
zero without a count (`encode_append_zero_of_chunks`).
-/

namespace ZeroRun

/-- A non-zero byte, or `count + 1` zeros. -/
inductive Chunk
  | byte (b : UInt8) (ne_zero : b ≠ 0)
  | zeros (count : UInt8)
  deriving DecidableEq

namespace Chunk

/-- What the chunk is written as. -/
def encode : Chunk → List UInt8
  | byte b _ => [b]
  | zeros c => [0, c]

/-- What the chunk stands for. -/
def expand : Chunk → List UInt8
  | byte b _ => [b]
  | zeros c => List.replicate (c.toNat + 1) 0

theorem expand_ne_nil (c : Chunk) : c.expand ≠ [] := by
  cases c <;> simp [expand]

end Chunk

def encode (cs : List Chunk) : List UInt8 := cs.flatMap Chunk.encode

def expand (cs : List Chunk) : List UInt8 := cs.flatMap Chunk.expand

@[simp] theorem encode_nil : encode [] = [] := rfl

@[simp] theorem expand_nil : expand [] = [] := rfl

@[simp] theorem encode_cons (c : Chunk) (cs : List Chunk) :
    encode (c :: cs) = c.encode ++ encode cs := List.flatMap_cons

@[simp] theorem expand_cons (c : Chunk) (cs : List Chunk) :
    expand (c :: cs) = c.expand ++ expand cs := List.flatMap_cons

theorem expand_eq_nil {cs : List Chunk} (h : (expand cs).length = 0) : cs = [] := by
  cases cs with
  | nil => rfl
  | cons c cs =>
    rw [expand_cons, List.length_append] at h
    have := List.length_pos_of_ne_nil c.expand_ne_nil
    omega

/-! ### Reading an encoding -/

/-- The chunks that are written as `xs`: a non-zero byte is one, and so are a
zero and its count. -/
def chunks : List UInt8 → Option (List Chunk)
  | [] => some []
  | [b] => if h : b = 0 then none else some [.byte b h]
  | b :: c :: xs =>
    if h : b = 0 then
      (chunks xs).map (.zeros c :: ·)
    else
      (chunks (c :: xs)).map (.byte b h :: ·)

theorem chunks_byte {b : UInt8} (hb : b ≠ 0) (xs : List UInt8) :
    chunks (b :: xs) = (chunks xs).map (.byte b hb :: ·) := by
  cases xs with
  | nil => simp [chunks, hb]
  | cons c xs => rw [chunks, dif_neg hb]

theorem chunks_zeros (c : UInt8) (xs : List UInt8) :
    chunks (0 :: c :: xs) = (chunks xs).map (.zeros c :: ·) := by
  rw [chunks, dif_pos rfl]

@[simp] theorem chunks_encode (cs : List Chunk) : chunks (encode cs) = some cs := by
  induction cs with
  | nil => rfl
  | cons c cs ih =>
    rw [encode_cons]
    cases c with
    | byte b hb => rw [Chunk.encode, List.singleton_append, chunks_byte hb, ih, Option.map_some]
    | zeros c => rw [Chunk.encode, List.cons_append, List.singleton_append, chunks_zeros, ih,
        Option.map_some]

/-- What is read is an encoding of what it is read as. -/
theorem encode_of_chunks {xs : List UInt8} {cs : List Chunk} (h : chunks xs = some cs) :
    xs = encode cs := by
  induction xs using chunks.induct generalizing cs with
  | case1 =>
    cases h
    rfl
  | case2 => cases h
  | case3 b hb =>
    rw [chunks, dif_neg hb] at h
    cases h
    rfl
  | case4 c xs ih =>
    rw [chunks_zeros] at h
    obtain ⟨cs, hcs, rfl⟩ := Option.map_eq_some_iff.mp h
    rw [encode_cons, ← ih hcs]
    rfl
  | case5 b c xs hb ih =>
    rw [chunks_byte hb] at h
    obtain ⟨cs, hcs, rfl⟩ := Option.map_eq_some_iff.mp h
    rw [encode_cons, ← ih hcs]
    rfl

/-- What is not read ends in a zero without a count, behind an encoding. -/
theorem encode_append_zero_of_chunks {xs : List UInt8} (h : chunks xs = none) :
    ∃ cs, xs = encode cs ++ [0] := by
  induction xs using chunks.induct with
  | case1 => cases h
  | case2 => exact ⟨[], rfl⟩
  | case3 b hb =>
    rw [chunks, dif_neg hb] at h
    cases h
  | case4 c xs ih =>
    rw [chunks_zeros, Option.map_eq_none_iff] at h
    obtain ⟨cs, hcs⟩ := ih h
    exact ⟨.zeros c :: cs, by rw [encode_cons, hcs]; rfl⟩
  | case5 b c xs hb ih =>
    rw [chunks_byte hb, Option.map_eq_none_iff] at h
    obtain ⟨cs, hcs⟩ := ih h
    exact ⟨.byte b hb :: cs, by rw [encode_cons, hcs]; rfl⟩

end ZeroRun
