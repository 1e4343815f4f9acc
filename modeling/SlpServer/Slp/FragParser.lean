import SlpServer.Lib.Lru
import SlpServer.Slp.Frame

/-!
# The reassembler

`FragParser` of `slp/frame.rs`.  A datagram of type `IPV4_FRAG` carries one
part of an IPv4 packet; `process` stores it in the slot list of its key
`(src_ip, id)` and, once every slot is filled, takes the list out of the cache
and copies the parts into one packet.  The first fragment of a key decides how
many slots there are.

`process_eq` says what one call does: it names the list a frame is looked up
in (`slotsFor`), the list after its slot is written (`stored`), and leaves the
copying to `assembleAll`, which panics exactly on a `Clash`
(`assembleAll_error_iff`): a fragment whose `len` is not the size of its data,
with its own range and those of all parts before it inside the packet.
-/

namespace SlpServer

open Rust

structure FragItem where
  srcIp : Ipv4Addr
  dstIp : Ipv4Addr
  id : UInt16
  part : UInt8
  totalPart : UInt8
  len : UInt16
  pmtu : UInt16
  data : Packet
  deriving DecidableEq, Repr

/-- `FragItem::from_frame`. -/
def FragItem.fromFrame (frag : Ipv4Frag) : Exec FragItem := do
  pure {
    srcIp := ← frag.srcIp
    dstIp := ← frag.dstIp
    id := ← frag.id
    part := ← frag.part
    totalPart := ← frag.totalPart
    len := ← frag.len
    pmtu := ← frag.pmtu
    data := ← frag.data }

abbrev FragParserKey := Ipv4Addr × UInt16

/-- The parts of one packet, those not seen yet empty. -/
abbrev Slots := List (Option FragItem)

structure FragParser where
  cache : LruCache FragParserKey Slots 50

namespace FragParser

def new : FragParser := ⟨LruCache.empty⟩

/-- The loop that copies the parts into the packet; a range outside the packet
ends it with `None`. -/
def assemble : List FragItem → Packet → Exec (Option Packet)
  | [], packet => pure (some packet)
  | i :: list, packet => do
    let start := i.pmtu.toNat * i.part.toNat
    let «end» := start + i.len.toNat
    match getRange packet start «end» with
    | some s => assemble list (writeRange packet start (← copyFromSlice s i.data))
    | none => pure none

/-- The sum of the lengths the fragments claim to have. -/
def size (list : List FragItem) : Nat := list.foldl (fun acc item => acc + item.len.toNat) 0

/-- A packet of the claimed size, filled with zeros and then with the parts. -/
def assembleAll (list : List FragItem) : Exec (Option Packet) :=
  assemble list (List.replicate (size list) 0)

/-- The slot list under `key` as `process` borrows it, made first for a new key. -/
def borrowList (self : FragParser) (key : FragParserKey) (item : FragItem) :
    Exec (Slots × (Slots → LruCache FragParserKey Slots 50)) :=
  match self.cache.getMut key with
  | some borrow => pure borrow
  | none =>
    let vec : Slots := List.replicate item.totalPart.toNat none
    unwrap ((self.cache.put key vec).getMut key)

/-- `FragParser::process`. -/
def process (self : FragParser) (frame : Ipv4Frag) : Exec (Option Packet × FragParser) := do
  let srcIp ← frame.srcIp
  let item ← FragItem.fromFrame frame
  let key : FragParserKey := (srcIp, item.id)
  let (list, write) ← self.borrowList key item
  let part := item.part.toNat
  match list[part]? with
  | none => pure (none, ⟨write list⟩)
  | some _ =>
    let list := list.set part (some item)
    let cache := write list
    if list.all Option.isSome then
      let (list, cache) := cache.pop key
      let list ← (← unwrap list).mapM unwrap
      let packet ← assembleAll list
      pure (packet, ⟨cache⟩)
    else
      pure (none, ⟨cache⟩)

/-- One datagram on its way into the reassembler: `ForwarderFrame::parse`, and
`process` when it is a fragment. -/
def receive (self : FragParser) (bytes : Packet) : Exec FragParser := do
  match ← ForwarderFrame.parse bytes with
  | .ok (.ipv4Frag frame) =>
    let (_, self) ← self.process frame
    pure self
  | _ => pure self

theorem receive_frag {s : FragParser} {d : Packet} {f : Ipv4Frag}
    (h : ForwarderFrame.parse d = .ok (.ok (.ipv4Frag f))) :
    s.receive d = (do let x ← s.process f; pure x.2) := by
  rw [receive, h]
  rfl

theorem receive_other {s : FragParser} {d : Packet}
    (h : ∀ f, ForwarderFrame.parse d ≠ .ok (.ok (.ipv4Frag f))) : s.receive d = .ok s := by
  obtain ⟨r, hr, _⟩ := ForwarderFrame.parse_total d
  rw [receive, hr]
  cases r with
  | error e => rfl
  | ok g =>
    cases g with
    | ipv4Frag f => exact absurd hr (h f)
    | keepalive | ipv4 | ping | authMe | info => rfl

end FragParser

/-! ### What a fragment says -/

/-- The fields of a fragment. -/
def Ipv4Frag.item (f : Ipv4Frag) : FragItem where
  srcIp := addrAt f.payload 0
  dstIp := addrAt f.payload 4
  id := numAt f.payload 8
  part := f.payload.getD 10 0
  totalPart := f.payload.getD 11 0
  len := numAt f.payload 12
  pmtu := numAt f.payload 14
  data := f.payload.drop 16

theorem FragItem.fromFrame_ok (f : Ipv4Frag) : FragItem.fromFrame f = .ok f.item := by
  rw [FragItem.fromFrame, f.srcIp_ok, f.dstIp_ok, f.id_ok, f.part_ok, f.totalPart_ok, f.len_ok,
    f.pmtu_ok, f.data_ok]
  rfl

def FragItem.key (i : FragItem) : FragParserKey := (i.srcIp, i.id)

/-- The claimed length is the size of the data. -/
def FragItem.LenOk (i : FragItem) : Prop := i.len.toNat = i.data.length

instance (i : FragItem) : Decidable i.LenOk := inferInstanceAs (Decidable (_ = _))

/-- Where the part starts, by its own `pmtu`. -/
def FragItem.start (i : FragItem) : Nat := i.pmtu.toNat * i.part.toNat

namespace FragParser

/-! ### Copying the parts -/

/-- A part that cannot be copied is met before one that lies outside. -/
def Clash (n : Nat) : List FragItem → Prop
  | [] => False
  | i :: list => i.start + i.len.toNat ≤ n ∧ (¬ i.LenOk ∨ Clash n list)

instance decidableClash (n : Nat) : (list : List FragItem) → Decidable (Clash n list)
  | [] => inferInstanceAs (Decidable False)
  | i :: list =>
    have := decidableClash n list
    inferInstanceAs (Decidable (i.start + i.len.toNat ≤ n ∧ (¬ i.LenOk ∨ Clash n list)))

theorem getRange_start {i : FragItem} {packet : Packet}
    (h : i.start + i.len.toNat ≤ packet.length) :
    getRange packet i.start (i.start + i.len.toNat) =
      some ((packet.drop i.start).take i.len.toNat) := by
  rw [getRange_some (Nat.le_add_right _ _) h, Nat.add_sub_cancel_left]

theorem length_getRange_start {i : FragItem} {packet : Packet}
    (h : i.start + i.len.toNat ≤ packet.length) :
    ((packet.drop i.start).take i.len.toNat).length = i.len.toNat := by
  rw [List.length_take, List.length_drop]
  omega

theorem assemble_eq (i : FragItem) (list : List FragItem) (packet : Packet) :
    assemble (i :: list) packet =
      match getRange packet i.start (i.start + i.len.toNat) with
      | some s => copyFromSlice s i.data >>= fun new =>
          assemble list (writeRange packet i.start new)
      | none => .ok none := rfl

theorem assemble_cons {i : FragItem} {list : List FragItem} {packet : Packet}
    (h : i.start + i.len.toNat ≤ packet.length) (hlen : i.LenOk) :
    assemble (i :: list) packet = assemble list (writeRange packet i.start i.data) := by
  have hcopy : copyFromSlice ((packet.drop i.start).take i.len.toNat) i.data = .ok i.data :=
    copyFromSlice_ok (by rw [length_getRange_start h, hlen])
  rw [assemble_eq, getRange_start h]
  simp only [hcopy, ok_bind]

theorem assemble_cons_outside {i : FragItem} {list : List FragItem} {packet : Packet}
    (h : packet.length < i.start + i.len.toNat) : assemble (i :: list) packet = .ok none := by
  rw [assemble_eq, getRange_none h]

theorem assemble_cons_clash {i : FragItem} {list : List FragItem} {packet : Packet}
    (h : i.start + i.len.toNat ≤ packet.length) (hlen : ¬ i.LenOk) :
    assemble (i :: list) packet = .error .lengthMismatch := by
  have hcopy : copyFromSlice ((packet.drop i.start).take i.len.toNat) i.data =
      .error .lengthMismatch := copyFromSlice_error (by rwa [length_getRange_start h])
  rw [assemble_eq, getRange_start h]
  simp only [hcopy, error_bind]

/-- Copying panics exactly on a clash. -/
theorem assemble_error_iff (list : List FragItem) (packet : Packet) :
    (∃ e, assemble list packet = .error e) ↔ Clash packet.length list := by
  induction list generalizing packet with
  | nil => simp [assemble, Clash]
  | cons i list ih =>
    by_cases h : i.start + i.len.toNat ≤ packet.length
    · by_cases hlen : i.LenOk
      · have hw : i.start + i.data.length ≤ packet.length := by rw [← hlen]; exact h
        rw [assemble_cons h hlen, ih, length_writeRange hw, Clash]
        simp [h, hlen]
      · rw [assemble_cons_clash h hlen]
        simp [Clash, h, hlen]
    · rw [assemble_cons_outside (by omega)]
      simp [Clash, h]

theorem not_clash {n : Nat} {list : List FragItem} (h : ∀ i ∈ list, i.LenOk) :
    ¬ Clash n list := by
  induction list with
  | nil => exact id
  | cons i list ih =>
    rintro ⟨_, hi | hlist⟩
    · exact hi (h i (by simp))
    · exact ih (fun j hj => h j (by simp [hj])) hlist

theorem assembleAll_error_iff (list : List FragItem) :
    (∃ e, assembleAll list = .error e) ↔ Clash (size list) list := by
  rw [assembleAll, assemble_error_iff, List.length_replicate]

/-! ### One call -/

/-- The slot list a fragment is looked up in: the one of its key, or the empty
one its own `total_part` makes. -/
def slotsFor (s : FragParser) (i : FragItem) : Slots :=
  (s.cache.lookup i.key).getD (List.replicate i.totalPart.toNat none)

/-- That list with the fragment in its slot. -/
def stored (s : FragParser) (i : FragItem) : Slots :=
  (s.slotsFor i).set i.part.toNat (some i)

/-- The contents of a slot list without its empty slots. -/
def contents (list : Slots) : List FragItem := list.filterMap id

/-- Every slot is filled. -/
def Full (list : Slots) : Prop := ∀ o ∈ list, o.isSome

instance (list : Slots) : Decidable (Full list) :=
  inferInstanceAs (Decidable (∀ o ∈ list, o.isSome = true))

theorem all_isSome_iff (list : Slots) : list.all Option.isSome = true ↔ Full list := by
  rw [List.all_eq_true]
  rfl

theorem map_some_contents {list : Slots} (h : Full list) : (contents list).map some = list := by
  induction list with
  | nil => rfl
  | cons o list ih =>
    cases o with
    | none => exact absurd (h none (by simp)) (by simp)
    | some i =>
      have := ih (fun o ho => h o (by simp [ho]))
      simpa [contents] using this

/-- The cache after a slot list is written under the key of `i`. -/
def store (s : FragParser) (i : FragItem) (list : Slots) : FragParser := ⟨s.cache.put i.key list⟩

/-- The cache without the entry of the key of `i`. -/
def forget (s : FragParser) (i : FragItem) : FragParser := ⟨(s.cache.pop i.key).2⟩

theorem borrowList_eq (s : FragParser) (i : FragItem) :
    s.borrowList i.key i = .ok (s.slotsFor i, fun list => s.cache.put i.key list) := by
  cases h : s.cache.lookup i.key with
  | some list =>
    rw [borrowList, LruCache.getMut_of_lookup h, slotsFor, h]
    rfl
  | none =>
    rw [borrowList, LruCache.getMut_eq_none.mpr h, slotsFor, h]
    simp only [LruCache.getMut_put_self, unwrap_some, Option.getD_none]

/-- **What one call does.**  A fragment outside its slot list is dropped, but
its key has been used; a fragment that leaves an empty slot is stored; the one
that fills the last slot takes the list out of the cache and answers with the
packet, if the parts fit. -/
theorem process_eq (s : FragParser) (f : Ipv4Frag) :
    s.process f =
      if f.item.part.toNat < (s.slotsFor f.item).length then
        if Full (s.stored f.item) then do
          let packet ← assembleAll (contents (s.stored f.item))
          pure (packet, (s.store f.item (s.stored f.item)).forget f.item)
        else .ok (none, s.store f.item (s.stored f.item))
      else .ok (none, s.store f.item (s.slotsFor f.item)) := by
  have hkey : (f.item.srcIp, f.item.id) = f.item.key := rfl
  have hset : (s.slotsFor f.item).set f.item.part.toNat (some f.item) = s.stored f.item := rfl
  have hsrc : f.srcIp = .ok f.item.srcIp := f.srcIp_ok
  simp only [process, hsrc, FragItem.fromFrame_ok, ok_bind, hkey, borrowList_eq, hset]
  by_cases hp : f.item.part.toNat < (s.slotsFor f.item).length
  · rw [if_pos hp, List.getElem?_eq_getElem hp]
    by_cases hf : Full (s.stored f.item)
    · have hall := (all_isSome_iff _).mpr hf
      have hm : (s.stored f.item).mapM unwrap = .ok (contents (s.stored f.item)) := by
        conv_lhs => rw [← map_some_contents hf]
        exact mapM_unwrap _
      simp only [hall, if_true, if_pos hf, LruCache.pop_fst, LruCache.lookup_put_self, unwrap_some,
        ok_bind, hm]
      rfl
    · have hall := Bool.eq_false_iff.mpr (fun h => hf ((all_isSome_iff _).mp h))
      simp only [hall, if_neg hf]
      rfl
  · rw [if_neg hp, List.getElem?_eq_none (by omega)]
    rfl

end FragParser

end SlpServer
