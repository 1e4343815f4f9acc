import SlpServer.Lib.Ascii
import SlpServer.Plugin.Blocker
import Mathlib.Data.List.TakeWhile

/-!
# Block rules as text

`Display` and `FromStr` of the rules in `plugin/blocker.rs`.  The command line
reads its rules with `from_str`, and its default rules are formatted first and
then read back.

`Written` says how a rule is written: a protocol in any case, a colon, and a
decimal number that may have a sign and leading zeros.
-/

namespace SlpServer

/-! ### The standard library -/

/-- `str::to_ascii_lowercase`. -/
def toAsciiLowercase (s : String) : String := String.ofList (s.toList.map Char.toLower)

/-- `s.splitn(2, sep)`, collected: a split at the first `sep`, if there is one. -/
def splitn2 (sep : Char) (s : String) : List String :=
  match s.toList.dropWhile (· ≠ sep) with
  | [] => [s]
  | _ :: rest => [String.ofList (s.toList.takeWhile (· ≠ sep)), String.ofList rest]

/-- A number without its `+`, if it has one. -/
def stripPlus : List Char → List Char
  | '+' :: digits => digits
  | digits => digits

/-- `u16::from_str`, without the kinds of its error. -/
def u16FromStr (s : String) : Option UInt16 :=
  let digits := stripPlus s.toList
  if digits = [] then none else (Decimal.read 65536 0 digits).map UInt16.ofNat

/-! ### The blocker's functions -/

structure RuleParseError where
  message : String
  deriving DecidableEq, Repr

/-- `Display for RuleParseError`. -/
def RuleParseError.display (self : RuleParseError) : String :=
  "Failed to parse rule: " ++ self.message

/-- `Protocol::from_str`. -/
def Protocol.fromStr (s : String) : Except RuleParseError Protocol :=
  match toAsciiLowercase s with
  | "tcp" => .ok .tcp
  | "udp" => .ok .udp
  | _ => .error ⟨"invalid protocol"⟩

namespace Rule

/-- `Display for Rule`. -/
def display (self : Rule) : String :=
  match self.protocol with
  | .tcp => "tcp:" ++ toString self.dstPort.toNat
  | .udp => "udp:" ++ toString self.dstPort.toNat

/-- `Rule::from_str`. -/
def fromStr (s : String) : Except RuleParseError Rule :=
  match splitn2 ':' s with
  | [protocol, dstPort] => do
    let protocol ← Protocol.fromStr protocol
    match u16FromStr dstPort with
    | some dstPort => .ok { protocol, dstPort }
    | none => .error ⟨"format error"⟩
  | _ => .error ⟨"format error"⟩

end Rule

/-! ### How a rule is written -/

def Protocol.name : Protocol → String
  | .tcp => "tcp"
  | .udp => "udp"

/-- The digits of `n`, or a `+` and the digits. -/
def Numeral (s : List Char) (n : Nat) : Prop :=
  ∃ digits, (s = digits ∨ s = '+' :: digits) ∧ Decimal.IsNumeral digits n

/-- `s` is a rule with this protocol and this number, however large. -/
def Written (s : String) (protocol : Protocol) (n : Nat) : Prop :=
  ∃ p d, s = p ++ ":" ++ d ∧ Ascii.Spells p.toList protocol.name.toList ∧ Numeral d.toList n

/-- `s` is in lower case, without a sign or leading zeros. -/
def Canonical (s : String) : Prop :=
  ∃ (protocol : Protocol) (digits : List Char) (n : Nat),
    s = protocol.name ++ ":" ++ String.ofList digits ∧
      Decimal.IsNumeral digits n ∧ Decimal.NoLeadingZero digits

/-! ### Reading the parts -/

theorem splitn2_eq_pair {sep : Char} {s p d : String} :
    splitn2 sep s = [p, d] ↔ s.toList = p.toList ++ sep :: d.toList ∧ sep ∉ p.toList := by
  unfold splitn2
  constructor
  · intro h
    have hsplit := List.takeWhile_append_dropWhile (p := fun c => decide (c ≠ sep)) (l := s.toList)
    have hnot := List.head?_dropWhile_not (fun c => decide (c ≠ sep)) s.toList
    cases hd : s.toList.dropWhile fun c => decide (c ≠ sep) with
    | nil =>
      rw [hd] at h
      cases h
    | cons c rest =>
      rw [hd] at h hsplit hnot
      have hc : c = sep := by simpa using hnot
      rw [hc] at hsplit
      cases h
      rw [String.toList_ofList, String.toList_ofList]
      refine ⟨hsplit.symm, ?_⟩
      intro hmem
      have := List.mem_takeWhile_imp hmem
      simp at this
  · rintro ⟨hs, hsep⟩
    have hall : ∀ c ∈ p.toList, decide (c ≠ sep) = true := by
      intro c hc
      simpa using ne_of_mem_of_not_mem hc hsep
    rw [hs, List.dropWhile_append_of_pos hall, List.takeWhile_append_of_pos hall]
    simp

/-- A string of two parts at most has a colon or is not split. -/
theorem splitn2_cases (sep : Char) (s : String) :
    splitn2 sep s = [s] ∨ ∃ p d, splitn2 sep s = [p, d] := by
  unfold splitn2
  split
  · exact .inl rfl
  · exact .inr ⟨_, _, rfl⟩

theorem Protocol.isLower_name (protocol : Protocol) :
    ∀ w ∈ protocol.name.toList, w.isLower = true := by
  have hall : protocol.name.toList.all Char.isLower = true := by
    cases protocol <;> decide
  exact List.all_eq_true.mp hall

theorem Protocol.fromStr_eq_ok {s : String} {protocol : Protocol} :
    Protocol.fromStr s = .ok protocol ↔ Ascii.Spells s.toList protocol.name.toList := by
  rw [← Ascii.map_toLower_eq_iff protocol.isLower_name]
  have hname : s.toList.map Char.toLower = protocol.name.toList ↔
      toAsciiLowercase s = protocol.name := by
    rw [← String.toList_inj, toAsciiLowercase, String.toList_ofList]
  rw [hname, Protocol.fromStr]
  split
  · rename_i h
    rw [h]
    cases protocol <;> decide
  · rename_i h
    rw [h]
    cases protocol <;> decide
  · rename_i htcp hudp
    refine iff_of_false (by simp) fun h => ?_
    cases protocol with
    | tcp => exact htcp h
    | udp => exact hudp h

theorem stripPlus_cases (s : List Char) : s = stripPlus s ∨ s = '+' :: stripPlus s := by
  unfold stripPlus
  split
  · exact .inr rfl
  · exact .inl rfl

theorem stripPlus_digits {digits : List Char} (h : ∀ c ∈ digits, c.isDigit = true) :
    stripPlus digits = digits := by
  rcases stripPlus_cases digits with hs | hs
  · exact hs.symm
  · have hplus : '+' ∈ digits := by
      rw [hs]
      exact List.mem_cons_self
    exact absurd (h '+' hplus) (by decide)

/-- `u16::from_str` reads the numerals below 2^16. -/
theorem u16FromStr_eq_some {s : String} {port : UInt16} :
    u16FromStr s = some port ↔ Numeral s.toList port.toNat := by
  have hread {digits : List Char} (hne : digits ≠ []) :
      (Decimal.read 65536 0 digits).map UInt16.ofNat = some port ↔
        Decimal.IsNumeral digits port.toNat := by
    have hlt : port.toNat < 65536 := port.toNat_lt
    rw [Option.map_eq_some_iff, Decimal.IsNumeral, and_iff_right hne]
    constructor
    · rintro ⟨n, hn, rfl⟩
      obtain ⟨hdigits, hvalue, hn⟩ := (Decimal.read_eq_some_iff (by decide)).mp hn
      rw [UInt16.toNat_ofNat_of_lt' hn]
      exact ⟨hdigits, hvalue⟩
    · rintro ⟨hdigits, hvalue⟩
      refine ⟨port.toNat, ?_, UInt16.ofNat_toNat⟩
      exact (Decimal.read_eq_some_iff (by decide)).mpr ⟨hdigits, hvalue, hlt⟩
  unfold u16FromStr
  constructor
  · intro h
    by_cases hne : stripPlus s.toList = []
    · simp [hne] at h
    · simp only [if_neg hne] at h
      exact ⟨_, stripPlus_cases _, (hread hne).mp h⟩
  · rintro ⟨digits, hs, hnum⟩
    have hstrip : stripPlus s.toList = digits := by
      rcases hs with hs | hs
      · rw [hs]
        exact stripPlus_digits hnum.2.1
      · rw [hs]
        rfl
    simp only [hstrip, if_neg hnum.1]
    exact (hread hnum.1).mpr hnum

/-! ### Reading and formatting -/

namespace Rule

/-- `from_str` reads exactly the written rules whose number is a port. -/
theorem fromStr_eq_ok {s : String} {r : Rule} :
    fromStr s = .ok r ↔ Written s r.protocol r.dstPort.toNat := by
  have hpair {p d : String} (hs : splitn2 ':' s = [p, d]) : fromStr s = .ok r ↔
      Protocol.fromStr p = .ok r.protocol ∧ u16FromStr d = some r.dstPort := by
    rw [fromStr, hs]
    dsimp only
    cases hp : Protocol.fromStr p with
    | error e => exact iff_of_false (by rintro ⟨⟩) (by rintro ⟨⟨⟩, _⟩)
    | ok protocol =>
      cases hd : u16FromStr d with
      | none => exact iff_of_false (by rintro ⟨⟩) (by rintro ⟨_, ⟨⟩⟩)
      | some dstPort =>
        obtain ⟨protocol', dstPort'⟩ := r
        constructor
        · rintro ⟨⟩
          exact ⟨rfl, rfl⟩
        · rintro ⟨⟨⟩, ⟨⟩⟩
          rfl
  constructor
  · intro h
    rcases splitn2_cases ':' s with hs | ⟨p, d, hs⟩
    · rw [fromStr, hs] at h
      cases h
    · obtain ⟨hp, hd⟩ := (hpair hs).mp h
      refine ⟨p, d, ?_, Protocol.fromStr_eq_ok.mp hp, u16FromStr_eq_some.mp hd⟩
      rw [← String.toList_inj, (splitn2_eq_pair.mp hs).1]
      simp
  · rintro ⟨p, d, hs, hp, hd⟩
    have hcolon : ':' ∉ p.toList := by
      intro hmem
      have hlower : ∀ w ∈ r.protocol.name.toList, w.isLower = true := r.protocol.isLower_name
      rw [← Ascii.map_toLower_eq_iff hlower] at hp
      have := hlower _ (hp ▸ List.mem_map_of_mem hmem)
      exact absurd this (by decide)
    refine (hpair (p := p) (d := d) (splitn2_eq_pair.mpr ⟨?_, hcolon⟩)).mpr
      ⟨Protocol.fromStr_eq_ok.mpr hp, u16FromStr_eq_some.mpr hd⟩
    rw [hs]
    simp

theorem display_eq (r : Rule) : r.display =
    r.protocol.name ++ ":" ++ String.ofList (Nat.toDigits 10 r.dstPort.toNat) := by
  rw [display, Nat.toString_eq_ofList_toDigits]
  cases r.protocol <;> rfl

theorem written_display (r : Rule) : Written r.display r.protocol r.dstPort.toNat := by
  refine ⟨r.protocol.name, String.ofList (Nat.toDigits 10 r.dstPort.toNat), r.display_eq, ?_, ?_⟩
  · rw [← Ascii.map_toLower_eq_iff r.protocol.isLower_name]
    cases r.protocol <;> decide
  · rw [String.toList_ofList]
    exact ⟨_, .inl rfl, Decimal.isNumeral_toDigits _⟩

theorem canonical_display (r : Rule) : Canonical r.display :=
  ⟨r.protocol, _, r.dstPort.toNat, r.display_eq, Decimal.isNumeral_toDigits _,
    Decimal.noLeadingZero_toDigits _⟩

theorem fromStr_display (r : Rule) : fromStr r.display = .ok r :=
  fromStr_eq_ok.mpr r.written_display

theorem fromStr_of_written {s : String} {protocol : Protocol} {n : Nat}
    (h : Written s protocol n) (hn : n ≤ 65535) :
    ∃ r, fromStr s = .ok r ∧ r.protocol = protocol ∧ r.dstPort.toNat = n := by
  have hport : (UInt16.ofNat n).toNat = n := UInt16.toNat_ofNat_of_lt' (Nat.lt_succ_of_le hn)
  refine ⟨⟨protocol, UInt16.ofNat n⟩, fromStr_eq_ok.mpr ?_, rfl, hport⟩
  show Written s protocol (UInt16.ofNat n).toNat
  rw [hport]
  exact h

/-- **Rules are read as they are written**, and formatting a rule and reading it
back gives the rule. -/
theorem fromStr_spec :
    (∀ s, (∃ r, fromStr s = .ok r) ↔ ∃ protocol n, Written s protocol n ∧ n ≤ 65535) ∧
    (∀ s protocol n, Written s protocol n → n ≤ 65535 →
      ∃ r, fromStr s = .ok r ∧ r.protocol = protocol ∧ r.dstPort.toNat = n) ∧
    (∀ r, fromStr r.display = .ok r) ∧
    ∀ s r, fromStr s = .ok r → Canonical r.display ∧ fromStr r.display = .ok r := by
  refine ⟨fun s => ⟨?_, ?_⟩, fun s protocol n => fromStr_of_written, fromStr_display, ?_⟩
  · rintro ⟨r, hr⟩
    exact ⟨r.protocol, r.dstPort.toNat, fromStr_eq_ok.mp hr, Nat.le_of_lt_succ r.dstPort.toNat_lt⟩
  · rintro ⟨protocol, n, h, hn⟩
    obtain ⟨r, hr, _⟩ := fromStr_of_written h hn
    exact ⟨r, hr⟩
  · intro s r _
    exact ⟨r.canonical_display, r.fromStr_display⟩

example : fromStr "UdP:+0080" = .ok ⟨.udp, 80⟩ ∧ fromStr "tcp:80:80" = .error ⟨"format error"⟩ := by
  decide

end Rule

end SlpServer
