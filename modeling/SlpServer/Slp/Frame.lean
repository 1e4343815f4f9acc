import SlpServer.Lib.Rust
import SlpServer.Slp.Packet

/-!
# Frames

`ForwarderFrame::parse` of `slp/frame.rs` and the views it hands out.  A view
keeps the bytes behind the type byte, and its length bounds come with it: they
are what `Parser::parse` checks before a view is built.  The accessors index
the bytes the way the source does, so that each may panic as far as its type
says; `Ipv4.srcIp_ok` and its siblings say that on a view none does.
-/

namespace SlpServer

open Rust

/-! ### The constants -/

namespace ForwarderType

def keepalive : UInt8 := 0
def ipv4 : UInt8 := 1
def ping : UInt8 := 2
def ipv4Frag : UInt8 := 3
def authMe : UInt8 := 4
def info : UInt8 := 0x10

end ForwarderType

namespace Field

def srcIp : Nat × Nat := (12, 16)
def dstIp : Nat × Nat := (16, 20)
def fragSrcIp : Nat × Nat := (0, 4)
def fragDstIp : Nat × Nat := (4, 8)
def fragId : Nat × Nat := (8, 10)
def fragPart : Nat := 10
def fragTotalPart : Nat := 11
def fragLen : Nat × Nat := (12, 14)
def fragPmtu : Nat × Nat := (14, 16)
def fragData : Nat := 16

end Field

/-! ### `Parser` -/

inductive ParseError
  | notParseable
  deriving DecidableEq, Repr

/-- The trait `Parser`: `doParse` is only called between the two bounds. -/
class Parser (T : Type) where
  minLength : Nat
  maxLength : Nat
  doParse (bytes : Packet) (h : minLength ≤ bytes.length ∧ bytes.length ≤ maxLength) :
    Exec (Except ParseError T)

/-- `Parser::parse`. -/
def Parser.parse (T : Type) [Parser T] (bytes : Packet) : Exec (Except ParseError T) :=
  if h : bytes.length < minLength T ∨ bytes.length > maxLength T then
    .ok (.error .notParseable)
  else doParse bytes (by omega)

/-- The `MAX_LENGTH` a parser has unless it says otherwise. -/
def defaultMaxLength : Nat := 2048

structure Ipv4 where
  payload : Packet
  bounds : 20 ≤ payload.length ∧ payload.length ≤ defaultMaxLength

structure Ipv4Frag where
  payload : Packet
  bounds : 16 ≤ payload.length ∧ payload.length ≤ defaultMaxLength

structure Ping where
  payload : Packet
  bounds : 4 ≤ payload.length ∧ payload.length ≤ 4

instance : Parser Ipv4 where
  minLength := 20
  maxLength := defaultMaxLength
  doParse bytes h := .ok (.ok ⟨bytes, h⟩)

instance : Parser Ipv4Frag where
  minLength := 16
  maxLength := defaultMaxLength
  doParse bytes h := .ok (.ok ⟨bytes, h⟩)

instance : Parser Ping where
  minLength := 4
  maxLength := 4
  doParse bytes h := .ok (.ok ⟨bytes, h⟩)

inductive ForwarderFrame
  | keepalive
  | ipv4 (ipv4 : Ipv4)
  | ping (ping : Ping)
  | ipv4Frag (frag : Ipv4Frag)
  | authMe
  | info

/-- `ForwarderFrame::do_parse`. -/
def ForwarderFrame.doParse (bytes : Packet) : Exec (Except ParseError ForwarderFrame) := do
  let typ ← index bytes 0
  let rest ← sliceFrom bytes 1
  if typ = ForwarderType.keepalive then
    pure (.ok .keepalive)
  else if typ = ForwarderType.ipv4 then
    pure ((← Parser.parse Ipv4 rest).map .ipv4)
  else if typ = ForwarderType.ping then
    pure ((← Parser.parse Ping rest).map .ping)
  else if typ = ForwarderType.ipv4Frag then
    pure ((← Parser.parse Ipv4Frag rest).map .ipv4Frag)
  else if typ = ForwarderType.authMe then
    pure (.ok .authMe)
  else if typ = ForwarderType.info then
    pure (.ok .info)
  else
    pure (.error .notParseable)

instance : Parser ForwarderFrame where
  minLength := 1
  maxLength := defaultMaxLength
  doParse bytes _ := ForwarderFrame.doParse bytes

/-- `ForwarderFrame::parse`. -/
def ForwarderFrame.parse (bytes : Packet) : Exec (Except ParseError ForwarderFrame) :=
  Parser.parse ForwarderFrame bytes

/-! ### The views -/

/-- Four bytes at a fixed place, as an address. -/
def octets (payload : Packet) (field : Nat × Nat) : Exec Ipv4Addr := do
  let octets ← copyFromSlice [0, 0, 0, 0] (← slice payload field.1 field.2)
  pure (Ipv4Addr.ofOctets octets)

/-- Two bytes at a fixed place, as a number. -/
def u16At (payload : Packet) (field : Nat × Nat) : Exec UInt16 := do
  getU16 (← slice payload field.1 field.2)

namespace Ipv4

def srcIp (self : Ipv4) : Exec Ipv4Addr := octets self.payload Field.srcIp
def dstIp (self : Ipv4) : Exec Ipv4Addr := octets self.payload Field.dstIp
def data (self : Ipv4) : Packet := self.payload

/-- `From<Ipv4> for OutAddr`. -/
def outAddr (self : Ipv4) : Exec OutAddr := do
  pure ⟨← self.srcIp, ← self.dstIp⟩

end Ipv4

namespace Ipv4Frag

def srcIp (self : Ipv4Frag) : Exec Ipv4Addr := octets self.payload Field.fragSrcIp
def dstIp (self : Ipv4Frag) : Exec Ipv4Addr := octets self.payload Field.fragDstIp
def id (self : Ipv4Frag) : Exec UInt16 := u16At self.payload Field.fragId
def part (self : Ipv4Frag) : Exec UInt8 := index self.payload Field.fragPart
def totalPart (self : Ipv4Frag) : Exec UInt8 := index self.payload Field.fragTotalPart
def len (self : Ipv4Frag) : Exec UInt16 := u16At self.payload Field.fragLen
def pmtu (self : Ipv4Frag) : Exec UInt16 := u16At self.payload Field.fragPmtu
def data (self : Ipv4Frag) : Exec Packet := sliceFrom self.payload Field.fragData

/-- `From<Ipv4Frag> for OutAddr`. -/
def outAddr (self : Ipv4Frag) : Exec OutAddr := do
  pure ⟨← self.srcIp, ← self.dstIp⟩

end Ipv4Frag

/-- `Ping::build`. -/
def Ping.build (self : Ping) : Exec Packet := do
  let rest ← slice self.payload 0 4
  pure (ForwarderType.ping :: rest)

/-! ### No accessor panics -/

/-- The address in the four bytes from `i` on. -/
def addrAt (payload : Packet) (i : Nat) : Ipv4Addr :=
  ⟨payload.getD i 0, payload.getD (i + 1) 0, payload.getD (i + 2) 0, payload.getD (i + 3) 0⟩

/-- The number in the two bytes from `i` on. -/
def numAt (payload : Packet) (i : Nat) : UInt16 :=
  be16 (payload.getD i 0) (payload.getD (i + 1) 0)

/-- The high and the low byte of a number. -/
def bytes16 (n : Nat) : Packet := [UInt8.ofNat (n / 256), UInt8.ofNat n]

theorem octets_ok {payload : Packet} {i : Nat} (h : i + 4 ≤ payload.length) :
    octets payload (i, i + 4) = .ok (addrAt payload i) := by
  have hcut : (payload.drop i).take (i + 4 - i) = [payload.getD i 0, payload.getD (i + 1) 0,
      payload.getD (i + 2) 0, payload.getD (i + 3) 0] := by
    rw [Nat.add_sub_cancel_left, take_four_drop 0 h]
  rw [octets, slice_ok (by omega) h, hcut]
  rfl

theorem u16At_ok {payload : Packet} {i : Nat} (h : i + 2 ≤ payload.length) :
    u16At payload (i, i + 2) = .ok (numAt payload i) := by
  have hcut : (payload.drop i).take (i + 2 - i) = [payload.getD i 0, payload.getD (i + 1) 0] := by
    rw [Nat.add_sub_cancel_left, take_two_drop 0 h]
  rw [u16At, slice_ok (by omega) h, hcut]
  rfl

theorem Ipv4.srcIp_ok (p : Ipv4) : p.srcIp = .ok (addrAt p.payload 12) :=
  octets_ok (by have := p.bounds; omega)

theorem Ipv4.dstIp_ok (p : Ipv4) : p.dstIp = .ok (addrAt p.payload 16) :=
  octets_ok (by have := p.bounds; omega)

theorem Ipv4.outAddr_ok (p : Ipv4) :
    p.outAddr = .ok ⟨addrAt p.payload 12, addrAt p.payload 16⟩ := by
  rw [Ipv4.outAddr, p.srcIp_ok, p.dstIp_ok]
  rfl

namespace Ipv4Frag

variable (f : Ipv4Frag)

theorem srcIp_ok : f.srcIp = .ok (addrAt f.payload 0) :=
  octets_ok (by have := f.bounds; omega)

theorem dstIp_ok : f.dstIp = .ok (addrAt f.payload 4) :=
  octets_ok (by have := f.bounds; omega)

theorem id_ok : f.id = .ok (numAt f.payload 8) := u16At_ok (by have := f.bounds; omega)

theorem part_ok : f.part = .ok (f.payload.getD 10 0) := index_ok 0 (by
  have := f.bounds; simp only [Field.fragPart]; omega)

theorem totalPart_ok : f.totalPart = .ok (f.payload.getD 11 0) := index_ok 0 (by
  have := f.bounds; simp only [Field.fragTotalPart]; omega)

theorem len_ok : f.len = .ok (numAt f.payload 12) := u16At_ok (by have := f.bounds; omega)

theorem pmtu_ok : f.pmtu = .ok (numAt f.payload 14) := u16At_ok (by have := f.bounds; omega)

theorem data_ok : f.data = .ok (f.payload.drop 16) := sliceFrom_ok (by
  have := f.bounds; simp only [Field.fragData]; omega)

theorem outAddr_ok : f.outAddr = .ok ⟨addrAt f.payload 0, addrAt f.payload 4⟩ := by
  rw [Ipv4Frag.outAddr, f.srcIp_ok, f.dstIp_ok]
  rfl

end Ipv4Frag

/-- `Ping::build` gives the datagram back. -/
theorem Ping.build_ok (p : Ping) : p.build = .ok (ForwarderType.ping :: p.payload) := by
  have h := p.bounds
  rw [Ping.build, slice_ok (Nat.zero_le _) h.1]
  have hcut : (p.payload.drop 0).take (4 - 0) = p.payload :=
    List.take_of_length_le (by simpa using h.2)
  rw [hcut]
  rfl

/-! ### What `parse` answers -/

theorem Parser.parse_of_bounds {T : Type} [Parser T] {bytes : Packet}
    (h : minLength T ≤ bytes.length ∧ bytes.length ≤ maxLength T) :
    Parser.parse T bytes = doParse bytes h := dif_neg (by omega)

theorem Parser.parse_of_not_bounds {T : Type} [Parser T] {bytes : Packet}
    (h : ¬ (minLength T ≤ bytes.length ∧ bytes.length ≤ maxLength T)) :
    Parser.parse T bytes = .ok (.error .notParseable) := dif_pos (by omega)

theorem ForwarderFrame.doParse_cons (typ : UInt8) (rest : Packet) :
    ForwarderFrame.doParse (typ :: rest) =
      (if typ = ForwarderType.keepalive then .ok (.ok .keepalive)
      else if typ = ForwarderType.ipv4 then do
        pure ((← Parser.parse Ipv4 rest).map ForwarderFrame.ipv4)
      else if typ = ForwarderType.ping then do
        pure ((← Parser.parse Ping rest).map ForwarderFrame.ping)
      else if typ = ForwarderType.ipv4Frag then do
        pure ((← Parser.parse Ipv4Frag rest).map ForwarderFrame.ipv4Frag)
      else if typ = ForwarderType.authMe then .ok (.ok .authMe)
      else if typ = ForwarderType.info then .ok (.ok .info)
      else .ok (.error .notParseable)) := rfl

/-- A parser of a view that keeps its bytes. -/
def Keeps (T : Type) [Parser T] (payload : T → Packet) : Prop :=
  ∀ bytes h, ∃ v : T, Parser.doParse bytes h = .ok (.ok v) ∧ payload v = bytes

theorem keeps_ipv4 : Keeps Ipv4 Ipv4.payload := fun bytes h => ⟨⟨bytes, h⟩, rfl, rfl⟩

theorem keeps_ping : Keeps Ping Ping.payload := fun bytes h => ⟨⟨bytes, h⟩, rfl, rfl⟩

theorem keeps_ipv4Frag : Keeps Ipv4Frag Ipv4Frag.payload := fun bytes h => ⟨⟨bytes, h⟩, rfl, rfl⟩

/-- A view holds the bytes it was parsed from, and parsing one never panics. -/
theorem Keeps.parse {T : Type} [Parser T] {payload : T → Packet} (hT : Keeps T payload)
    (bytes : Packet) : ∃ r, Parser.parse T bytes = .ok r ∧ ∀ v, r = .ok v → payload v = bytes := by
  by_cases h : Parser.minLength T ≤ bytes.length ∧ bytes.length ≤ Parser.maxLength T
  · obtain ⟨v, hv, hp⟩ := hT bytes h
    refine ⟨.ok v, (Parser.parse_of_bounds h).trans hv, ?_⟩
    intro w hw
    cases hw
    exact hp
  · exact ⟨_, Parser.parse_of_not_bounds h, fun v hv => by cases hv⟩

/-- The frame read from `bytes` is of the type they begin with, and keeps the
bytes it needs. -/
def ForwarderFrame.ReadFrom (bytes : Packet) : ForwarderFrame → Prop
  | .keepalive => bytes.head? = some ForwarderType.keepalive
  | .ipv4 v => bytes = ForwarderType.ipv4 :: v.payload
  | .ping v => bytes = ForwarderType.ping :: v.payload
  | .ipv4Frag v => bytes = ForwarderType.ipv4Frag :: v.payload
  | .authMe => bytes.head? = some ForwarderType.authMe
  | .info => bytes.head? = some ForwarderType.info

theorem Keeps.readFrom {T : Type} [Parser T] {payload : T → Packet} (hT : Keeps T payload)
    {make : T → ForwarderFrame} {typ : UInt8} {rest : Packet}
    (hmake : ∀ v, payload v = rest → (make v).ReadFrom (typ :: rest)) :
    ∃ r, (do pure ((← Parser.parse T rest).map make) : Exec (Except ParseError ForwarderFrame)) =
      .ok r ∧ ∀ f, r = .ok f → f.ReadFrom (typ :: rest) := by
  obtain ⟨r, hr, hv⟩ := hT.parse rest
  refine ⟨r.map make, by rw [hr]; rfl, ?_⟩
  intro f hf
  cases r with
  | error e => cases hf
  | ok v =>
    cases hf
    exact hmake v (hv v rfl)

theorem ForwarderFrame.doParse_total (typ : UInt8) (rest : Packet) :
    ∃ r, ForwarderFrame.doParse (typ :: rest) = .ok r ∧
      ∀ f, r = .ok f → f.ReadFrom (typ :: rest) := by
  rw [ForwarderFrame.doParse_cons]
  by_cases h0 : typ = ForwarderType.keepalive
  · rw [if_pos h0]
    exact ⟨_, rfl, fun f hf => by cases hf; rw [ReadFrom, h0, List.head?_cons]⟩
  rw [if_neg h0]
  by_cases h1 : typ = ForwarderType.ipv4
  · rw [if_pos h1]
    exact keeps_ipv4.readFrom fun v hv => by rw [ReadFrom, h1, hv]
  rw [if_neg h1]
  by_cases h2 : typ = ForwarderType.ping
  · rw [if_pos h2]
    exact keeps_ping.readFrom fun v hv => by rw [ReadFrom, h2, hv]
  rw [if_neg h2]
  by_cases h3 : typ = ForwarderType.ipv4Frag
  · rw [if_pos h3]
    exact keeps_ipv4Frag.readFrom fun v hv => by rw [ReadFrom, h3, hv]
  rw [if_neg h3]
  by_cases h4 : typ = ForwarderType.authMe
  · rw [if_pos h4]
    exact ⟨_, rfl, fun f hf => by cases hf; rw [ReadFrom, h4, List.head?_cons]⟩
  rw [if_neg h4]
  by_cases h5 : typ = ForwarderType.info
  · rw [if_pos h5]
    exact ⟨_, rfl, fun f hf => by cases hf; rw [ReadFrom, h5, List.head?_cons]⟩
  · rw [if_neg h5]
    exact ⟨_, rfl, fun f hf => by cases hf⟩

/-- **`parse` never panics**, and a frame holds the datagram it was read from. -/
theorem ForwarderFrame.parse_total (bytes : Packet) :
    ∃ r, ForwarderFrame.parse bytes = .ok r ∧ ∀ f, r = .ok f → f.ReadFrom bytes := by
  by_cases h : 1 ≤ bytes.length ∧ bytes.length ≤ defaultMaxLength
  · cases bytes with
    | nil => simp at h
    | cons typ rest =>
      obtain ⟨r, hr, hf⟩ := ForwarderFrame.doParse_total typ rest
      exact ⟨r, (Parser.parse_of_bounds (T := ForwarderFrame) h).trans hr, hf⟩
  · exact ⟨_, Parser.parse_of_not_bounds (T := ForwarderFrame) h, fun f hf => by cases hf⟩

theorem ForwarderFrame.parse_ipv4 {p : Packet} (h20 : 20 ≤ p.length) (hmax : p.length ≤ 2047) :
    ∃ v, ForwarderFrame.parse (ForwarderType.ipv4 :: p) = .ok (.ok (.ipv4 v)) ∧ v.payload = p := by
  have hlen : 1 ≤ (ForwarderType.ipv4 :: p).length ∧
      (ForwarderType.ipv4 :: p).length ≤ defaultMaxLength := by
    rw [List.length_cons, defaultMaxLength]
    omega
  have hp : 20 ≤ p.length ∧ p.length ≤ defaultMaxLength := ⟨h20, by rw [defaultMaxLength]; omega⟩
  refine ⟨⟨p, hp⟩, ?_, rfl⟩
  rw [ForwarderFrame.parse, Parser.parse_of_bounds (T := ForwarderFrame) hlen]
  show ForwarderFrame.doParse _ = _
  rw [ForwarderFrame.doParse_cons, if_neg (by decide), if_pos rfl,
    Parser.parse_of_bounds (T := Ipv4) hp]
  rfl

end SlpServer
