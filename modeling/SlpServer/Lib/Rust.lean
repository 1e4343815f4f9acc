import Mathlib.Algebra.GroupWithZero.Nat
import Mathlib.Data.List.Basic
import Mathlib.Data.List.Induction
import Mathlib.Data.List.GetD

/-!
# Computations that may panic

A Rust function that indexes a slice, copies between slices or unwraps an
option may panic.  `Exec α` is the outcome of such a function: a value, or the
panic that ended it.  The operations below panic exactly where the ones of the
standard library do:

* `index`, `slice`, `sliceFrom`: `xs[i]`, `&xs[a..b]`, `&xs[a..]`;
* `getRange`, `writeRange`: `xs.get_mut(a..b)`, which answers `None` instead of
  panicking, and a write through it;
* `copyFromSlice`: `dst.copy_from_slice(src)`, which wants equal lengths;
* `setIndex`, `swapWithSlice`: `xs[i] = x` and `xs[a..b].swap_with_slice(new)`;
* `unwrap`: `Option::unwrap`;
* `getU16`, `getU16le`, `getU32le`: the integer readers of a byte buffer;
* `addI32`, `mulUsize`: arithmetic that overflows, which panics in a build with
  overflow checks and wraps in one without.

Each has a lemma for the case in which it does not panic.
-/

namespace Rust

/-- What ended a computation. -/
inductive Panic
  | indexOutOfRange
  | lengthMismatch
  | unwrapNone
  | bufferUnderflow
  | overflow
  deriving DecidableEq, Repr

/-- The outcome of a computation that may panic. -/
abbrev Exec (α : Type) := Except Panic α

variable {α β : Type}

@[simp] theorem ok_bind (a : α) (f : α → Exec β) : (Except.ok a >>= f : Exec β) = f a := rfl

@[simp] theorem error_bind (e : Panic) (f : α → Exec β) :
    (Except.error e >>= f : Exec β) = Except.error e := rfl

@[simp] theorem pure_eq_ok (a : α) : (pure a : Exec α) = Except.ok a := rfl

theorem bind_eq_ok {x : Exec α} {f : α → Exec β} {b : β} :
    (x >>= f) = Except.ok b ↔ ∃ a, x = Except.ok a ∧ f a = Except.ok b := by
  cases x with
  | error e => simp
  | ok a => simp

theorem bind_eq_error {x : Exec α} {f : α → Exec β} {e : Panic} :
    (x >>= f) = Except.error e ↔
      x = Except.error e ∨ ∃ a, x = Except.ok a ∧ f a = Except.error e := by
  cases x with
  | error e => simp
  | ok a => simp

/-- A loop ends well exactly when each of its rounds does. -/
theorem foldlM_ok_iff {f : β → α → Exec β} (l : List α) (s : β) :
    (∃ t, l.foldlM f s = Except.ok t) ↔
      ∀ pre x post t, l = pre ++ x :: post → pre.foldlM f s = Except.ok t →
        ∃ u, f t x = Except.ok u := by
  induction l using List.reverseRecOn with
  | nil => simp
  | append_singleton l x ih =>
    constructor
    · rintro ⟨t, ht⟩ pre y post u hl hpre
      rw [List.foldlM_append, bind_eq_ok] at ht
      obtain ⟨m, hm, hx⟩ := ht
      rcases List.eq_nil_or_concat post with rfl | ⟨post, z, rfl⟩
      · obtain ⟨rfl, hy⟩ := List.append_inj' hl rfl
        cases hy
        rw [hpre] at hm
        cases hm
        simp only [List.foldlM_cons, List.foldlM_nil, bind_eq_ok] at hx
        obtain ⟨v, hv, _⟩ := hx
        exact ⟨v, hv⟩
      · have hl' : l ++ [x] = (pre ++ y :: post) ++ [z] := by rw [hl]; simp
        exact ih.mp ⟨m, hm⟩ pre y post u (List.append_inj' hl' rfl).1 hpre
    · intro h
      obtain ⟨m, hm⟩ := ih.mpr fun pre y post u hl hpre =>
        h pre y (post ++ [x]) u (by rw [hl]; simp) hpre
      obtain ⟨u, hu⟩ := h l x [] m rfl hm
      exact ⟨u, by simp [List.foldlM_append, hm, hu]⟩

/-! ### Computations that return -/

/-- The computation does not panic. -/
def Returns (x : Exec α) : Prop := ∃ a, x = Except.ok a

theorem returns_ok (a : α) : Returns (Except.ok a) := ⟨a, rfl⟩

theorem returns_pure (a : α) : Returns (pure a : Exec α) := ⟨a, rfl⟩

/-- A sequence returns when its first half does, and its second on what the
first returned. -/
theorem Returns.bind {x : Exec α} {f : α → Exec β} (hx : Returns x)
    (hf : ∀ a, x = Except.ok a → Returns (f a)) : Returns (x >>= f) := by
  obtain ⟨a, ha⟩ := hx
  rw [ha, ok_bind]
  exact hf a ha

theorem Returns.mapM {f : α → Exec β} {xs : List α} (h : ∀ x ∈ xs, Returns (f x)) :
    Returns (xs.mapM f) := by
  induction xs with
  | nil => exact ⟨[], rfl⟩
  | cons x xs ih =>
    rw [List.mapM_cons]
    exact (h x (by simp)).bind fun y _ =>
      (ih fun z hz => h z (by simp [hz])).bind fun ys _ => returns_pure _

theorem forall₂_of_mapM {f : α → Exec β} {xs : List α} {ys : List β} (h : xs.mapM f = .ok ys) :
    List.Forall₂ (fun x y => f x = .ok y) xs ys := by
  induction xs generalizing ys with
  | nil =>
    cases h
    exact .nil
  | cons x xs ih =>
    rw [List.mapM_cons, bind_eq_ok] at h
    obtain ⟨y, hy, h⟩ := h
    obtain ⟨ys, hys, h⟩ := bind_eq_ok.mp h
    cases h
    exact .cons hy (ih hys)

theorem mapM_ok {f : α → Exec β} {g : α → β} {xs : List α} (h : ∀ x ∈ xs, f x = .ok (g x)) :
    xs.mapM f = .ok (xs.map g) := by
  induction xs with
  | nil => rfl
  | cons x xs ih =>
    rw [List.mapM_cons, h x (by simp), ok_bind, ih fun y hy => h y (by simp [hy])]
    rfl

/-- **A machine inside another**, which leaves it alone but for some events. -/
theorem foldlM_embed {σ τ ε ι : Type} {f : σ → ε → Exec σ} {g : τ → ι → Exec τ}
    (inj : τ → σ) (view : ε → Option ι) {es : List ε} (t : τ)
    (h : ∀ t, ∀ e ∈ es, f (inj t) e =
      (view e).elim (pure (inj t)) fun i => do pure (inj (← g t i))) :
    es.foldlM f (inj t) = (do pure (inj (← (es.filterMap view).foldlM g t))) := by
  induction es generalizing t with
  | nil => rfl
  | cons e es ih =>
    have ih := fun t => ih t fun t e he => h t e (List.mem_cons_of_mem _ he)
    rw [List.foldlM_cons, h t e List.mem_cons_self]
    cases hv : view e with
    | none =>
      rw [List.filterMap_cons_none hv]
      exact ih t
    | some i =>
      rw [List.filterMap_cons_some hv, List.foldlM_cons, Option.elim_some]
      cases g t i with
      | error p => rfl
      | ok t' => exact ih t'

/-! ### Slices -/

/-- `xs[i]`. -/
def index (xs : List α) (i : Nat) : Exec α :=
  match xs[i]? with
  | some x => .ok x
  | none => .error .indexOutOfRange

/-- `&xs[a..b]`. -/
def slice (xs : List α) (a b : Nat) : Exec (List α) :=
  if a ≤ b ∧ b ≤ xs.length then .ok ((xs.drop a).take (b - a)) else .error .indexOutOfRange

/-- `&xs[a..]`. -/
def sliceFrom (xs : List α) (a : Nat) : Exec (List α) :=
  if a ≤ xs.length then .ok (xs.drop a) else .error .indexOutOfRange

/-- `xs.get_mut(a..b)`: the bytes the borrow covers, if the range lies inside. -/
def getRange (xs : List α) (a b : Nat) : Option (List α) :=
  if a ≤ b ∧ b ≤ xs.length then some ((xs.drop a).take (b - a)) else none

/-- A write through the borrow that starts at `a`. -/
def writeRange (xs : List α) (a : Nat) (new : List α) : List α :=
  xs.take a ++ new ++ xs.drop (a + new.length)

/-- `dst.copy_from_slice(src)`: what `dst` holds afterwards. -/
def copyFromSlice (dst src : List α) : Exec (List α) :=
  if dst.length = src.length then .ok src else .error .lengthMismatch

/-- `xs[i] = x`. -/
def setIndex (xs : List α) (i : Nat) (x : α) : Exec (List α) :=
  if i < xs.length then .ok (xs.set i x) else .error .indexOutOfRange

/-- `xs[a..b].swap_with_slice(new)`: what `xs` holds afterwards. -/
def swapWithSlice (xs : List α) (a b : Nat) (new : List α) : Exec (List α) := do
  let old ← slice xs a b
  if old.length = new.length then .ok (writeRange xs a new) else .error .lengthMismatch

/-- `Option::unwrap`. -/
def unwrap : Option α → Exec α
  | some a => .ok a
  | none => .error .unwrapNone

theorem index_returns {xs : List α} {i : Nat} (h : i < xs.length) : Returns (index xs i) := by
  rw [index, List.getElem?_eq_getElem h]
  exact returns_ok _

theorem index_ok {xs : List α} {i : Nat} (d : α) (h : i < xs.length) :
    index xs i = .ok (xs.getD i d) := by
  rw [index, List.getElem?_eq_getElem h, List.getD_eq_getElem _ _ h]

theorem slice_ok {xs : List α} {a b : Nat} (hab : a ≤ b) (hb : b ≤ xs.length) :
    slice xs a b = .ok ((xs.drop a).take (b - a)) := if_pos ⟨hab, hb⟩

theorem length_of_slice {xs ys : List α} {a b : Nat} (h : slice xs a b = .ok ys) :
    ys.length = b - a := by
  rw [slice] at h
  split at h
  · cases h
    rw [List.length_take, List.length_drop]
    omega
  · cases h

theorem slice_returns {xs : List α} {a b : Nat} (hab : a ≤ b) (hb : b ≤ xs.length) :
    Returns (slice xs a b) := ⟨_, slice_ok hab hb⟩

theorem slice_take {xs : List α} {a b k : Nat} (hb : b ≤ xs.length) (hk : b ≤ k) :
    slice (xs.take k) a b = slice xs a b := by
  have hlen : b ≤ (xs.take k).length := by
    rw [List.length_take]
    omega
  rw [slice, slice]
  by_cases hab : a ≤ b
  · rw [if_pos ⟨hab, hlen⟩, if_pos ⟨hab, hb⟩, List.drop_take, List.take_take,
      Nat.min_eq_left (by omega)]
  · rw [if_neg (by omega), if_neg (by omega)]

theorem sliceFrom_ok {xs : List α} {a : Nat} (h : a ≤ xs.length) :
    sliceFrom xs a = .ok (xs.drop a) := if_pos h

theorem getRange_some {xs : List α} {a b : Nat} (hab : a ≤ b) (hb : b ≤ xs.length) :
    getRange xs a b = some ((xs.drop a).take (b - a)) := if_pos ⟨hab, hb⟩

theorem getRange_none {xs : List α} {a b : Nat} (hb : xs.length < b) :
    getRange xs a b = none := if_neg (by omega)

theorem copyFromSlice_ok {dst src : List α} (h : dst.length = src.length) :
    copyFromSlice dst src = .ok src := if_pos h

theorem copyFromSlice_error {dst src : List α} (h : dst.length ≠ src.length) :
    copyFromSlice dst src = .error .lengthMismatch := if_neg h

theorem setIndex_ok {xs : List α} {i : Nat} (x : α) (h : i < xs.length) :
    setIndex xs i x = .ok (xs.set i x) := if_pos h

theorem swapWithSlice_ok {xs new : List α} {a : Nat} (h : a + new.length ≤ xs.length) :
    swapWithSlice xs a (a + new.length) new = .ok (writeRange xs a new) := by
  have hlen : ((xs.drop a).take (a + new.length - a)).length = new.length := by
    rw [List.length_take, List.length_drop]
    omega
  rw [swapWithSlice, slice_ok (by omega) h, ok_bind, if_pos hlen]

@[simp] theorem unwrap_some (a : α) : unwrap (some a) = .ok a := rfl

theorem length_writeRange {xs new : List α} {a : Nat} (h : a + new.length ≤ xs.length) :
    (writeRange xs a new).length = xs.length := by
  simp only [writeRange, List.length_append, List.length_take, List.length_drop]
  omega

/-- Unwrapping a list of filled slots gives the list of their contents. -/
theorem mapM_unwrap (xs : List α) : (xs.map some).mapM unwrap = .ok xs := by
  induction xs with
  | nil => rfl
  | cons x xs ih => simp [List.mapM_cons, ih]

/-! ### Integers in a buffer -/

/-- `std::cmp::min`. -/
def cmpMin [LE α] [DecidableLE α] (a b : α) : α := if a ≤ b then a else b

/-- The two bytes `hi lo` read as one number. -/
def be16 (hi lo : UInt8) : UInt16 := UInt16.ofNat (hi.toNat * 256 + lo.toNat)

/-- `Buf::get_u16`: big endian. -/
def getU16 : List UInt8 → Exec UInt16
  | hi :: lo :: _ => .ok (be16 hi lo)
  | _ => .error .bufferUnderflow

/-- `Buf::get_u16_le`. -/
def getU16le : List UInt8 → Exec UInt16
  | lo :: hi :: _ => .ok (be16 hi lo)
  | _ => .error .bufferUnderflow

/-- `Buf::get_u32_le`. -/
def getU32le : List UInt8 → Exec UInt32
  | a :: b :: c :: d :: _ =>
    .ok (UInt32.ofNat (((d.toNat * 256 + c.toNat) * 256 + b.toNat) * 256 + a.toNat))
  | _ => .error .bufferUnderflow

theorem getU16le_returns {xs : List UInt8} (h : 2 ≤ xs.length) : Returns (getU16le xs) := by
  match xs with
  | [] => simp at h
  | [_] => simp at h
  | lo :: hi :: _ => exact returns_ok _

theorem getU32le_returns {xs : List UInt8} (h : 4 ≤ xs.length) : Returns (getU32le xs) := by
  match xs with
  | [] => simp at h
  | [_] => simp at h
  | [_, _] => simp at h
  | [_, _, _] => simp at h
  | _ :: _ :: _ :: _ :: _ => exact returns_ok _

theorem be16_toNat (hi lo : UInt8) : (be16 hi lo).toNat = hi.toNat * 256 + lo.toNat := by
  have h1 := hi.toNat_lt
  have h2 := lo.toNat_lt
  rw [be16, UInt16.toNat_ofNat', Nat.mod_eq_of_lt (by omega)]

theorem be16_ofNat {n : Nat} (h : n < 65536) :
    (be16 (UInt8.ofNat (n / 256)) (UInt8.ofNat n)).toNat = n := by
  rw [be16_toNat, UInt8.toNat_ofNat', UInt8.toNat_ofNat']
  omega

theorem take_two_drop {xs : List α} {a : Nat} (d : α) (h : a + 2 ≤ xs.length) :
    (xs.drop a).take 2 = [xs.getD a d, xs.getD (a + 1) d] := by
  rw [List.drop_eq_getElem_cons (by omega), List.drop_eq_getElem_cons (by omega),
    List.getD_eq_getElem _ _ (by omega), List.getD_eq_getElem _ _ (by omega)]
  rfl

theorem take_four_drop {xs : List α} {a : Nat} (d : α) (h : a + 4 ≤ xs.length) :
    (xs.drop a).take 4 =
      [xs.getD a d, xs.getD (a + 1) d, xs.getD (a + 2) d, xs.getD (a + 3) d] := by
  rw [List.drop_eq_getElem_cons (by omega), List.drop_eq_getElem_cons (by omega),
    List.drop_eq_getElem_cons (by omega), List.drop_eq_getElem_cons (by omega),
    List.getD_eq_getElem _ _ (by omega), List.getD_eq_getElem _ _ (by omega),
    List.getD_eq_getElem _ _ (by omega), List.getD_eq_getElem _ _ (by omega)]
  rfl

/-! ### Arithmetic that may overflow -/

/-- `a + b` in `i32`. -/
def addI32 (checks : Bool) (a b : Int32) : Exec Int32 :=
  if checks = true ∧ (a + b).toInt ≠ a.toInt + b.toInt then .error .overflow else .ok (a + b)

/-- `a * b` in `usize`, which has 64 bits. -/
def mulUsize (checks : Bool) (a b : Nat) : Exec Nat :=
  if checks = true ∧ 2 ^ 64 ≤ a * b then .error .overflow else .ok (a * b % 2 ^ 64)

/-- `n as i32`. -/
def asI32 (n : Nat) : Int32 := Int32.ofNat n

theorem addI32_eq_ok {checks : Bool} {a b c : Int32} (h : addI32 checks a b = .ok c) :
    c = a + b := by
  rw [addI32] at h
  split at h
  · cases h
  · cases h
    rfl

theorem addI32_false (a b : Int32) : addI32 false a b = .ok (a + b) :=
  if_neg fun h => Bool.false_ne_true h.1

theorem mulUsize_false (a b : Nat) : mulUsize false a b = .ok (a * b % 2 ^ 64) :=
  if_neg fun h => Bool.false_ne_true h.1

theorem addI32_zero (checks : Bool) (a : Int32) : addI32 checks a 0 = .ok a := by
  have hexact : (a + 0).toInt = a.toInt + (0 : Int32).toInt := by
    rw [Int32.add_zero]
    exact (Int.add_zero _).symm
  rw [addI32, if_neg fun hc => hc.2 hexact, Int32.add_zero]

/-- A checked sum that does not panic is exact. -/
theorem toInt_addI32 {a b c : Int32} (h : addI32 true a b = .ok c) :
    (a + b).toInt = a.toInt + b.toInt := by
  rw [addI32] at h
  split at h
  · cases h
  · rename_i hexact
    by_contra hne
    exact hexact ⟨rfl, hne⟩

/-- A product that does not fit loses its high bits. -/
theorem mulUsize_eq_ok {checks : Bool} {a b c : Nat} (h : mulUsize checks a b = .ok c) :
    c = a * b % 2 ^ 64 := by
  rw [mulUsize] at h
  split at h
  · cases h
  · cases h
    rfl

theorem asI32_add (a b : Nat) : asI32 (a + b) = asI32 a + asI32 b := Int32.ofNat_add a b

theorem asI32_eq_iff {a b : Nat} : asI32 a = asI32 b ↔ a % 2 ^ 32 = b % 2 ^ 32 := by
  rw [asI32, asI32, ← Int32.toBitVec_inj, Int32.toBitVec_ofNat', Int32.toBitVec_ofNat',
    ← BitVec.toNat_inj, BitVec.toNat_ofNat, BitVec.toNat_ofNat]

/-- The cast drops what the product may have lost. -/
theorem asI32_mulUsize {checks : Bool} {a b c : Nat} (h : mulUsize checks a b = .ok c) :
    asI32 c = asI32 (a * b) := by
  rw [asI32_eq_iff, mulUsize_eq_ok h]
  exact Nat.mod_mod_of_dvd _ (by decide)

theorem toInt_asI32 {n : Nat} (h : n < 2 ^ 31) : (asI32 n).toInt = n :=
  Int32.toInt_ofNat_of_lt h

theorem addI32_asI32 (checks : Bool) {a b : Nat} (h : a + b < 2 ^ 31) :
    addI32 checks (asI32 a) (asI32 b) = .ok (asI32 (a + b)) := by
  have hexact : (asI32 a + asI32 b).toInt = (asI32 a).toInt + (asI32 b).toInt := by
    rw [← asI32_add, toInt_asI32 h, toInt_asI32 (by omega), toInt_asI32 (by omega)]
    rfl
  rw [addI32, if_neg fun hc => hc.2 hexact, asI32_add]

theorem mulUsize_comm (checks : Bool) (a b : Nat) : mulUsize checks a b = mulUsize checks b a := by
  rw [mulUsize, mulUsize, Nat.mul_comm]

theorem mulUsize_ok (checks : Bool) {a b : Nat} (h : a * b < 2 ^ 64) :
    mulUsize checks a b = .ok (a * b) := by
  rw [mulUsize, if_neg (by omega), Nat.mod_eq_of_lt h]

end Rust
