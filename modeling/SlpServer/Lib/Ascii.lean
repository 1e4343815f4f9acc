import Mathlib.Data.List.Forall2

/-!
# Letters and digits

What ASCII text needs that is read without regard to case, or as a decimal
number.

* `Ascii.Spells s word`: `s` is the lower-case `word`, with each of its letters in
  lower or upper case; `Ascii.map_toLower_eq_iff` reads it off.
* `Decimal.IsNumeral digits n`: the digits, most significant first, stand for
  `n`; leading zeros are allowed.  `Decimal.read` reads digits one by one and
  gives up as soon as the number so far reaches a limit, which is when the whole
  number does (`Decimal.read_eq_some_iff`).

`Nat.toDigits` writes the numeral without leading zeros.
-/

/-! ### Letters -/

namespace Ascii

/-- The word, with each of its letters in lower or upper case. -/
def Spells (s word : List Char) : Prop := List.Forall₂ (fun c w => c = w ∨ c = w.toUpper) s word

theorem toNat_toUpper {w : Char} (hw : w.isLower = true) :
    97 ≤ w.toNat ∧ w.toNat ≤ 122 ∧ w.toUpper.toNat = w.toNat - 32 := by
  have hrange : 'a'.val ≤ w.val ∧ w.val ≤ 'z'.val :=
    (Bool.and_eq_true_iff.mp hw).imp of_decide_eq_true of_decide_eq_true
  have hlo : 97 ≤ w.toNat := UInt32.le_iff_toNat_le.mp hrange.1
  have hhi : w.toNat ≤ 122 := UInt32.le_iff_toNat_le.mp hrange.2
  have hupper : w.toUpper = ⟨w.val + ('A'.val - 'a'.val), _⟩ := dif_pos hrange
  refine ⟨hlo, hhi, ?_⟩
  rw [hupper]
  show (w.val + 4294967264).toNat = w.val.toNat - 32
  rw [UInt32.toNat_add]
  show (w.toNat + 4294967264) % 4294967296 = w.toNat - 32
  omega

theorem toNat_toLower (c : Char) :
    c.toLower.toNat = if 65 ≤ c.toNat ∧ c.toNat ≤ 90 then c.toNat + 32 else c.toNat := by
  have hiff : 'A'.val ≤ c.val ∧ c.val ≤ 'Z'.val ↔ 65 ≤ c.toNat ∧ c.toNat ≤ 90 :=
    and_congr UInt32.le_iff_toNat_le UInt32.le_iff_toNat_le
  by_cases h : 'A'.val ≤ c.val ∧ c.val ≤ 'Z'.val
  · have hlower : c.toLower = ⟨c.val + 32, _⟩ := dif_pos h
    have hhi := (hiff.mp h).2
    rw [if_pos (hiff.mp h), hlower]
    show (c.val + 32).toNat = c.toNat + 32
    rw [UInt32.toNat_add]
    show (c.toNat + 32) % 4294967296 = c.toNat + 32
    omega
  · have hlower : c.toLower = c := dif_neg h
    rw [if_neg (mt hiff.mpr h), hlower]

/-- A letter is one of the two cases of its lower-case letter. -/
theorem toLower_eq_iff {c w : Char} (hw : w.isLower = true) :
    c.toLower = w ↔ c = w ∨ c = w.toUpper := by
  obtain ⟨hlo, hhi, hupper⟩ := toNat_toUpper hw
  rw [← Char.toNat_inj, ← Char.toNat_inj, ← Char.toNat_inj, toNat_toLower, hupper]
  split <;> omega

/-- Text in lower case is a word exactly when it spells the word. -/
theorem map_toLower_eq_iff {s word : List Char} (hword : ∀ w ∈ word, w.isLower = true) :
    s.map Char.toLower = word ↔ Spells s word := by
  unfold Spells
  induction word generalizing s with
  | nil => rw [List.map_eq_nil_iff, List.forall₂_nil_right_iff]
  | cons w word ih =>
    have ⟨hw, hword⟩ := List.forall_mem_cons.mp hword
    rw [List.map_eq_cons_iff, List.forall₂_cons_right_iff]
    constructor
    · rintro ⟨c, s, rfl, hc, hs⟩
      exact ⟨c, s, (toLower_eq_iff hw).mp hc, (ih hword).mp hs, rfl⟩
    · rintro ⟨c, s, hc, hs, rfl⟩
      exact ⟨c, s, rfl, (toLower_eq_iff hw).mpr hc, (ih hword).mpr hs⟩

end Ascii

/-! ### Digits -/

namespace Decimal

def IsNumeral (digits : List Char) (n : Nat) : Prop :=
  digits ≠ [] ∧ (∀ c ∈ digits, c.isDigit = true) ∧ Nat.ofDigitChars 10 digits 0 = n

/-- No zero in front, but for zero itself. -/
def NoLeadingZero (digits : List Char) : Prop := digits.head? = some '0' → digits = ['0']

/-- The digits read behind those of `acc`, as long as the number stays below
the limit. -/
def read (limit acc : Nat) : List Char → Option Nat
  | [] => some acc
  | c :: cs =>
    if c.isDigit then
      let acc := 10 * acc + (c.toNat - '0'.toNat)
      if acc < limit then read limit acc cs else none
    else
      none

theorem le_ofDigitChars (acc : Nat) (digits : List Char) :
    acc ≤ Nat.ofDigitChars 10 digits acc := by
  induction digits generalizing acc with
  | nil => exact Nat.le_of_eq Nat.ofDigitChars_nil.symm
  | cons c cs ih =>
    rw [Nat.ofDigitChars_cons]
    have h := ih (10 * acc + (c.toNat - '0'.toNat))
    omega

/-- Reading succeeds on digits of a number below the limit, and gives it. -/
theorem read_eq_some_iff {limit acc n : Nat} (hacc : acc < limit) {digits : List Char} :
    read limit acc digits = some n ↔
      (∀ c ∈ digits, c.isDigit = true) ∧ Nat.ofDigitChars 10 digits acc = n ∧ n < limit := by
  induction digits generalizing acc with
  | nil =>
    rw [read, Nat.ofDigitChars_nil]
    constructor
    · rintro ⟨⟩
      exact ⟨by simp, rfl, hacc⟩
    · rintro ⟨_, rfl, _⟩
      rfl
  | cons c cs ih =>
    rw [read, Nat.ofDigitChars_cons, List.forall_mem_cons]
    by_cases hc : c.isDigit = true
    · by_cases hlt : 10 * acc + (c.toNat - '0'.toNat) < limit
      · simp only [hc, if_true, hlt, ih hlt, true_and]
      · -- the number only grows
        have hle := le_ofDigitChars (10 * acc + (c.toNat - '0'.toNat)) cs
        simp only [hc, if_true, hlt, if_false, reduceCtorEq, false_iff]
        rintro ⟨_, rfl, hn⟩
        omega
    · simp [hc]

/-! ### Writing -/

theorem isNumeral_toDigits (n : Nat) : IsNumeral (Nat.toDigits 10 n) n :=
  ⟨Nat.toDigits_ne_nil, fun _ hc => Nat.isDigit_of_mem_toDigits (by decide) (by decide) hc,
    Nat.ofDigitChars_ten_toDigits⟩

theorem head?_toDigits_ne_zero {n : Nat} (hn : 0 < n) : (Nat.toDigits 10 n).head? ≠ some '0' := by
  induction n using Nat.strongRecOn with
  | ind n ih =>
    by_cases hlt : n < 10
    · rw [Nat.toDigits_of_lt_base hlt, List.head?_cons, ne_eq, Option.some.injEq,
        Nat.digitChar_eq_zero]
      omega
    · rw [Nat.toDigits_of_base_le (by decide) (by omega),
        List.head?_append_of_ne_nil _ Nat.toDigits_ne_nil]
      exact ih (n / 10) (by omega) (by omega)

theorem noLeadingZero_toDigits (n : Nat) : NoLeadingZero (Nat.toDigits 10 n) := by
  intro h
  rcases Nat.eq_zero_or_pos n with rfl | hn
  · exact Nat.toDigits_zero 10
  · exact absurd h (head?_toDigits_ne_zero hn)

end Decimal
