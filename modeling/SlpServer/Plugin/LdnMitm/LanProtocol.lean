import SlpServer.Lib.Rust
import SlpServer.Slp.Packet

/-!
# The LDN protocol

`plugin/ldn_mitm/lan_protocol.rs`: the header of an LDN packet, the zero-run
decoder and the view of the network description it carries.
-/

namespace SlpServer

open Rust

namespace LanProtocol

inductive Error
  | truncated
  | invalid
  | decompressFailed
  deriving DecidableEq, Repr

namespace Field

def magic : Nat × Nat := (0, 4)
def typ : Nat := 4
def compressed : Nat := 5
def len : Nat × Nat := (6, 8)
def oriLen : Nat × Nat := (8, 10)
def reversed : Nat × Nat := (10, 12)
def payload : Nat := 12

end Field

/-! ### The header -/

structure LdnHeader where
  buffer : Packet

namespace LdnHeader

def magic (self : LdnHeader) : Exec UInt32 := do
  getU32le (← slice self.buffer Field.magic.1 Field.magic.2)

def typ (self : LdnHeader) : Exec UInt8 := index self.buffer Field.typ

def compressed (self : LdnHeader) : Exec UInt8 := index self.buffer Field.compressed

def len (self : LdnHeader) : Exec UInt16 := do
  getU16le (← slice self.buffer Field.len.1 Field.len.2)

def decompressLen (self : LdnHeader) : Exec UInt16 := do
  getU16le (← slice self.buffer Field.oriLen.1 Field.oriLen.2)

def payload (self : LdnHeader) : Exec Packet := sliceFrom self.buffer Field.payload

def check (self : LdnHeader) : Exec (Except Error Unit) := do
  let len := self.buffer.length
  if len < Field.reversed.2 then
    pure (.error .truncated)
  else if (← self.magic) ≠ 0x11451400 then
    pure (.error .truncated)
  else if len < (← self.len).toNat + Field.reversed.2 then
    pure (.error .truncated)
  else
    pure (.ok ())

def newChecked (buffer : Packet) : Exec (Except Error LdnHeader) := do
  pure ((← check ⟨buffer⟩).map fun _ => ⟨buffer⟩)

end LdnHeader

/-! ### Reading a header of twelve bytes -/

section

variable {h : LdnHeader} (hlen : 12 ≤ h.buffer.length)
include hlen

theorem LdnHeader.magic_ok : h.magic = .ok (UInt32.ofNat ((((h.buffer.getD 3 0).toNat * 256 +
    (h.buffer.getD 2 0).toNat) * 256 + (h.buffer.getD 1 0).toNat) * 256 +
    (h.buffer.getD 0 0).toNat)) := by
  rw [magic, slice_ok (by decide) (by simp only [Field.magic]; omega)]
  show getU32le ((h.buffer.drop 0).take 4) = _
  rw [take_four_drop 0 (by omega)]
  rfl

theorem LdnHeader.typ_ok : h.typ = .ok (h.buffer.getD 4 0) :=
  index_ok 0 (by simp only [Field.typ]; omega)

theorem LdnHeader.compressed_ok : h.compressed = .ok (h.buffer.getD 5 0) :=
  index_ok 0 (by simp only [Field.compressed]; omega)

theorem LdnHeader.len_ok : h.len = .ok (be16 (h.buffer.getD 7 0) (h.buffer.getD 6 0)) := by
  rw [len, slice_ok (by decide) (by simp only [Field.len]; omega)]
  show getU16le ((h.buffer.drop 6).take 2) = _
  rw [take_two_drop 0 (by omega)]
  rfl

theorem LdnHeader.decompressLen_ok :
    h.decompressLen = .ok (be16 (h.buffer.getD 9 0) (h.buffer.getD 8 0)) := by
  rw [decompressLen, slice_ok (by decide) (by simp only [Field.oriLen]; omega)]
  show getU16le ((h.buffer.drop 8).take 2) = _
  rw [take_two_drop 0 (by omega)]
  rfl

theorem LdnHeader.payload_ok : h.payload = .ok (h.buffer.drop 12) :=
  sliceFrom_ok (by simp only [Field.payload]; omega)

end

theorem LdnHeader.check_of_short {h : LdnHeader} (hlen : h.buffer.length < 12) :
    h.check = .ok (.error .truncated) := if_pos hlen

theorem LdnHeader.check_of_long {h : LdnHeader} (hlen : 12 ≤ h.buffer.length) : h.check = (do
    if (← h.magic) ≠ 0x11451400 then pure (.error .truncated)
    else if h.buffer.length < (← h.len).toNat + 12 then pure (.error .truncated)
    else pure (.ok ())) := if_neg (show ¬ h.buffer.length < 12 by omega)

/-- What `check` accepts: the magic, and the length that the header declares. -/
theorem LdnHeader.check_eq_ok_iff {h : LdnHeader} : h.check = .ok (.ok ()) ↔
    12 ≤ h.buffer.length ∧ h.magic = .ok 0x11451400 ∧
      ∃ len, h.len = .ok len ∧ len.toNat + 12 ≤ h.buffer.length := by
  by_cases hlen : 12 ≤ h.buffer.length
  · obtain ⟨m, hm⟩ : ∃ m, h.magic = .ok m := ⟨_, LdnHeader.magic_ok hlen⟩
    obtain ⟨n, hn⟩ : ∃ n, h.len = .ok n := ⟨_, LdnHeader.len_ok hlen⟩
    rw [LdnHeader.check_of_long hlen, hm, hn]
    simp only [ok_bind, hlen, true_and, Except.ok.injEq, exists_eq_left']
    by_cases hmagic : m = 0x11451400
    · rw [if_neg (not_not.mpr hmagic)]
      by_cases hshort : h.buffer.length < n.toNat + 12
      · rw [if_pos hshort]
        exact iff_of_false nofun fun hc => by omega
      · rw [if_neg hshort]
        exact iff_of_true rfl ⟨hmagic, by omega⟩
    · rw [if_pos hmagic]
      exact iff_of_false nofun fun hc => hmagic hc.1
  · rw [LdnHeader.check_of_short (by omega)]
    exact iff_of_false nofun fun hc => hlen hc.1

/-! ### The zero-run decoder -/

/-- The loop of `decompress`: whether the last byte was a zero that waits for
its count, and how much of `output` is written. -/
def decompressLoop : Packet → Bool → Nat → Packet → Exec (Option Nat × Packet)
  | [], leadZero, pos, output => pure (if leadZero then none else some pos, output)
  | i :: input, leadZero, pos, output =>
    if pos ≥ output.length then
      pure (none, output)
    else if leadZero then do
      let size := i.toNat
      if pos + size > output.length then
        pure (none, output)
      else
        let output ← swapWithSlice output pos (pos + size) (List.replicate size 0)
        decompressLoop input false (pos + size) output
    else do
      let output ← setIndex output pos i
      decompressLoop input (decide (i = 0)) (pos + 1) output

/-- `decompress`: the number of bytes written, and the buffer. -/
def decompress (input output : Packet) : Exec (Option Nat × Packet) :=
  decompressLoop input false 0 output

structure LdnPacket where
  typ : UInt8
  payload : Packet
  deriving DecidableEq, Repr

/-- `LdnPacket::new`. -/
def LdnPacket.new (payload : Packet) : Exec (Except Error LdnPacket) := do
  match ← LdnHeader.newChecked payload with
  | .error e => pure (.error e)
  | .ok header =>
    if (← header.compressed) = 1 then
      let buf := List.replicate (← header.decompressLen).toNat 0
      let (size, buf) ← decompress (← header.payload) buf
      match size with
      | none => pure (.error .decompressFailed)
      | some size =>
        if size ≠ buf.length then
          pure (.error .decompressFailed)
        else
          pure (.ok ⟨← header.typ, buf⟩)
    else
      pure (.ok ⟨← header.typ, ← header.payload⟩)

/-- The packet from the payload of a compressed one. -/
def unpack (typ : UInt8) (input : Packet) (n : Nat) : Exec (Except Error LdnPacket) :=
  (decompress input (List.replicate n 0)).map fun r =>
    if r.1 = some r.2.length then .ok ⟨typ, r.2⟩ else .error .decompressFailed

theorem new_of_check {b : Packet} (h : LdnHeader.check ⟨b⟩ = .ok (.ok ())) :
    LdnPacket.new b = if b.getD 5 0 = 1 then
        unpack (b.getD 4 0) (b.drop 12) (be16 (b.getD 9 0) (b.getD 8 0)).toNat
      else .ok (.ok ⟨b.getD 4 0, b.drop 12⟩) := by
  have h12 := (LdnHeader.check_eq_ok_iff.mp h).1
  have hnew : LdnHeader.newChecked b = .ok (.ok ⟨b⟩) := by
    rw [LdnHeader.newChecked, h]
    rfl
  rw [LdnPacket.new, hnew]
  simp only [ok_bind, LdnHeader.compressed_ok h12, LdnHeader.decompressLen_ok h12,
    LdnHeader.typ_ok h12, LdnHeader.payload_ok h12, unpack]
  split
  · cases decompress (b.drop 12) (List.replicate (be16 (b.getD 9 0) (b.getD 8 0)).toNat 0) with
    | error e => rfl
    | ok r =>
      obtain ⟨size, buf⟩ := r
      cases size with
      | none => simp [Except.map]
      | some size =>
        by_cases hs : size = buf.length
        · simp [Except.map, hs]
        · simp [Except.map, hs]
  · rfl

theorem new_of_refused {b : Packet} {e : Error} (h : LdnHeader.check ⟨b⟩ = .ok (.error e)) :
    LdnPacket.new b = .ok (.error e) := by
  rw [LdnPacket.new, LdnHeader.newChecked, h]
  rfl

/-! ### The network description -/

/-- `String::from_utf8(data).unwrap_or("")`. -/
def stringOrEmpty (data : Packet) : String := (String.fromUTF8? ⟨data.toArray⟩).getD ""

/-- The bytes up to the first zero. -/
def untilZero (data : Packet) : Packet := data.takeWhile (· != 0)

structure NodeInfo where
  buffer : Packet

namespace NodeInfo

def new (buffer : Packet) : Except Error NodeInfo :=
  if buffer.length < 0x40 then .error .invalid else .ok ⟨buffer⟩

def ip (self : NodeInfo) : Exec Ipv4Addr := do
  let n ← getU32le (← slice self.buffer 0 4)
  pure ⟨UInt8.ofNat (n.toNat / 0x1000000), UInt8.ofNat (n.toNat / 0x10000),
    UInt8.ofNat (n.toNat / 0x100), UInt8.ofNat n.toNat⟩

def nodeId (self : NodeInfo) : Exec UInt8 := index self.buffer 0xA

def isConnected (self : NodeInfo) : Exec Bool := do
  pure ((← index self.buffer 0xB) == 1)

def playerName (self : NodeInfo) : Exec String := do
  let data ← slice self.buffer 0xC (0xC + 0x20)
  pure (stringOrEmpty (untilZero data))

end NodeInfo

structure NetworkInfo where
  buffer : Packet

namespace NetworkInfo

def new (buffer : Packet) : Except Error NetworkInfo :=
  if buffer.length < 0x480 then .error .invalid else .ok ⟨buffer⟩

def contentIdBytes (self : NetworkInfo) : Exec Packet := do
  let ret ← copyFromSlice (List.replicate 8 0) (← slice self.buffer 0 8)
  pure ret.reverse

def sessionId (self : NetworkInfo) : Exec Packet := do
  copyFromSlice (List.replicate 16 0) (← slice self.buffer 16 32)

def hostPlayerName (self : NetworkInfo) : Exec String := do
  let data ← slice self.buffer 0x74 (0x74 + 32)
  pure (stringOrEmpty (untilZero data))

def nodeCountMax (self : NetworkInfo) : Exec UInt8 := do
  pure (cmpMin (← index self.buffer 0x66) 8)

def nodeCount (self : NetworkInfo) : Exec UInt8 := do
  pure (cmpMin (← index self.buffer 0x67) 8)

/-- The `i`-th node; `NodeInfo::new(buf).unwrap()`. -/
def node (self : NetworkInfo) (i : Nat) : Exec NodeInfo := do
  let start := 0x68 + 0x40 * i
  let buf ← slice self.buffer start (start + 0x40)
  unwrap (NodeInfo.new buf).toOption

def nodes (self : NetworkInfo) : Exec (List NodeInfo) := do
  (List.range (← self.nodeCount).toNat).mapM self.node

def advertiseDataLen (self : NetworkInfo) : Exec UInt16 := do
  pure (cmpMin (← getU16le (← slice self.buffer 0x26A (0x26A + 2))) 384)

def advertiseData (self : NetworkInfo) : Exec Packet := do
  let len := (← self.advertiseDataLen).toNat
  let start := 0x26C
  slice self.buffer start (start + len)

end NetworkInfo

end LanProtocol

end SlpServer
