import SlpServer.Lib.Latest
import SlpServer.Plugin.Flows

/-!
# The rooms

The LDN plugin has two writers: `in_packet`, which puts the room of an answer
under the address it came from, and the task that scans every five seconds and
clears them first.  Whatever the order of datagrams and scans,

* the room under an address is the one of its last answer since the last scan,
  and the plugin panics only where its reassembler does (`rooms_told`);
* what other addresses send does not change it (`room_of_source`);
* every room that is listed is what an answer from its address describes, and is
  in order (`rooms_sound`).
-/

namespace SlpServer

open Rust Keyed LanProtocol

namespace LdnMitmPlugin

/-! ### The plugin at work -/

inductive Event
  | datagram (packet : InPacket)
  | scan
  deriving DecidableEq, Repr

/-- The task of `LdnMitmPlugin::new`, but for what it sends. -/
def scan (self : LdnMitmPlugin) : LdnMitmPlugin := { self with roomInfo := ∅ }

def handle (C : Crates) (self : LdnMitmPlugin) : Event → Exec LdnMitmPlugin
  | .datagram packet => do
    let (_, self) ← self.inPacket C packet
    pure self
  | .scan => pure self.scan

def play (C : Crates) (self : LdnMitmPlugin) (es : List Event) : Exec LdnMitmPlugin :=
  es.foldlM (handle C) self

/-- `Query::room`. -/
def rooms (self : LdnMitmPlugin) : List LdnMitm.RoomInfo :=
  self.roomInfo.entries.map fun e => e.2

/-! ### What it hears -/

/-- A scan, or the packet that a datagram brings. -/
inductive Heard
  | scan
  | packet (p : Option LanPacket)

/-- The reassembler at work. -/
def hear (self : FragParser) : Event → Exec (Heard × FragParser)
  | .datagram packet => do
    let (p, self) ← lanPacket self packet
    pure (.packet p, self)
  | .scan => pure (.scan, self)

/-- What is said of the room of `ip`: nothing, that there is none, or that there
is one. -/
def Heard.tells (C : Crates) (ip : Ipv4Addr) : Heard → Option (Option LdnMitm.RoomInfo)
  | .scan => some none
  | .packet none => none
  | .packet (some (srcIp, dstIp, p)) =>
    if dstIp = LdnMitm.serverAddr ∧ srcIp = ip then
      match readRoom C srcIp p with
      | .ok (some room) => some (some room)
      | _ => none
    else
      none

section
variable {C : Crates} {l l' : LdnMitmPlugin} {es : List Event} {e : Event}

theorem play_concat (h : new.play C es = .ok l) : new.play C (es ++ [e]) = l.handle C e := by
  unfold play at h ⊢
  rw [List.foldlM_append, h, ok_bind, List.foldlM_cons]
  cases l.handle C e <;> rfl

theorem of_play_concat (h : new.play C (es ++ [e]) = .ok l') :
    ∃ l, new.play C es = .ok l ∧ l.handle C e = .ok l' := by
  unfold play at h
  rw [List.foldlM_append, bind_eq_ok] at h
  obtain ⟨l, hl, h⟩ := h
  exact ⟨l, hl, by rw [← play_concat hl, play, List.foldlM_append, bind_eq_ok]; exact ⟨l, hl, h⟩⟩

theorem handle_returns : Returns (l.handle C e) ↔ Returns (hear l.fragParser e) := by
  cases e with
  | scan => exact iff_of_true (returns_ok _) (returns_ok _)
  | datagram d =>
    simp only [handle, hear, inPacket]
    cases lanPacket l.fragParser d with
    | error e => simp [Returns]
    | ok x =>
      obtain ⟨rooms, hrooms⟩ := learnRoom_returns C l.roomInfo x.1
      simp [Returns, hrooms]

theorem handle_cases (h : l.handle C e = .ok l') :
    ∃ heard, hear l.fragParser e = .ok (heard, l'.fragParser) ∧
      ∀ ip, l'.roomInfo.lookup ip = ((heard.tells C ip).or (some (l.roomInfo.lookup ip))).join := by
  cases e with
  | scan =>
    cases h
    exact ⟨.scan, rfl, fun ip => rfl⟩
  | datagram d =>
    obtain ⟨⟨v, _⟩, hin, h⟩ := bind_eq_ok.mp h
    cases h
    obtain ⟨⟨p, s⟩, hp, hin⟩ := bind_eq_ok.mp hin
    obtain ⟨rooms, hrooms, hin⟩ := bind_eq_ok.mp hin
    cases hin
    refine ⟨.packet p, by rw [hear, hp]; rfl, fun ip => ?_⟩
    cases p with
    | none =>
      cases hrooms
      rfl
    | some x =>
      obtain ⟨srcIp, dstIp, p⟩ := x
      rw [learnRoom] at hrooms
      simp only [Heard.tells]
      by_cases hdst : dstIp = LdnMitm.serverAddr
      · rw [if_pos hdst, bind_eq_ok] at hrooms
        obtain ⟨r, hr, hrooms⟩ := hrooms
        by_cases hsrc : srcIp = ip
        · rw [if_pos ⟨hdst, hsrc⟩]
          subst hsrc
          cases r with
          | none =>
            cases hrooms
            rw [hr]
            rfl
          | some room =>
            cases hrooms
            rw [hr]
            exact AList.lookup_insert _
        · rw [if_neg fun hc => hsrc hc.2]
          cases r with
          | none =>
            cases hrooms
            rfl
          | some room =>
            cases hrooms
            exact AList.lookup_insert_ne (Ne.symm hsrc)
      · rw [if_neg hdst] at hrooms
        cases hrooms
        rw [if_neg fun hc => hdst hc.1]
        rfl

end

/-- The rooms are what was told of them. -/
theorem of_play {C : Crates} {es : List Event} {l : LdnMitmPlugin} (h : new.play C es = .ok l) :
    ∃ out, Keyed.run hear FragParser.new es = .ok (out, l.fragParser) ∧
      ∀ ip, l.roomInfo.lookup ip = (latest (Heard.tells C ip) (out.map Prod.snd)).join := by
  induction es using List.reverseRecOn generalizing l with
  | nil =>
    cases h
    exact ⟨[], rfl, fun ip => rfl⟩
  | append_singleton es e ih =>
    obtain ⟨l₀, hl₀, he⟩ := of_play_concat h
    obtain ⟨out, hrun, hrooms⟩ := ih hl₀
    obtain ⟨heard, hheard, hroom⟩ := handle_cases he
    refine ⟨_, run_concat hrun hheard, fun ip => ?_⟩
    rw [hroom ip, hrooms ip, List.map_append, List.map_singleton, latest_concat]
    cases Heard.tells C ip heard <;> cases latest (Heard.tells C ip) (out.map Prod.snd) <;> rfl

theorem play_returns (C : Crates) (es : List Event) :
    Returns (new.play C es) ↔ Returns (Keyed.run hear FragParser.new es) := by
  induction es using List.reverseRecOn with
  | nil => exact iff_of_true (returns_ok _) (returns_ok _)
  | append_singleton es e ih =>
    constructor
    · rintro ⟨l, h⟩
      obtain ⟨out, hrun, _⟩ := of_play h
      exact ⟨_, hrun⟩
    · rintro ⟨⟨out, s⟩, h⟩
      obtain ⟨out', s', heard, hrun, hheard, _⟩ := of_run_concat h
      obtain ⟨l, hl⟩ := ih.mpr ⟨_, hrun⟩
      obtain ⟨_, hrun', _⟩ := of_play hl
      rw [hrun] at hrun'
      cases hrun'
      rw [play_concat hl]
      exact handle_returns.mpr ⟨_, hheard⟩

/-- **Rooms are told by their hosts.**  In every order of datagrams and scans the
plugin panics only where the reassembler does, and the room under an address is
that of the last answer from it since the last scan. -/
theorem rooms_told (C : Crates) (es : List Event) :
    (Returns (new.play C es) ↔ Returns (Keyed.run hear FragParser.new es)) ∧
    ∀ l, new.play C es = .ok l → ∃ out, Keyed.run hear FragParser.new es = .ok (out, l.fragParser) ∧
      ∀ ip, l.roomInfo.lookup ip = (latest (Heard.tells C ip) (out.map Prod.snd)).join :=
  ⟨play_returns C es, fun _ h => of_play h⟩

/-! ### Where a room comes from -/

/-- The address a datagram claims to come from. -/
def sourceOf (d : InPacket) : Option Ipv4Addr :=
  match ForwarderFrame.parse d.data with
  | .ok (.ok (.ipv4 v)) => some (addrAt v.payload 12)
  | .ok (.ok (.ipv4Frag f)) => some f.item.srcIp
  | _ => none

/-- Scans, and what comes from `ip`. -/
def Event.about (ip : Ipv4Addr) : Event → Bool
  | .datagram d => sourceOf d = some ip
  | .scan => true

def Event.key : Event → Option FragParserKey
  | .datagram d => flowOf d
  | .scan => none

/-- The plugin's reassembler as keyed work. -/
def hearing : Work Event FragParserKey Slots Heard where
  key := Event.key
  plain
    | .datagram d => (lanWork.map Heard.packet).plain d
    | .scan => .ok .scan
  keyed
    | .datagram d, entry => (lanWork.map Heard.packet).keyed d entry
    | .scan, _ => .ok (.scan, [], false)

theorem hear_cached (c : LruCache FragParserKey Slots 50) (e : Event) :
    hear ⟨c⟩ e = (do let x ← hearing.cached c e; pure (x.1, ⟨x.2⟩)) := by
  cases e with
  | scan => rfl
  | datagram d =>
    have hsame : hearing.cached c (.datagram d) = (lanWork.map Heard.packet).cached c d := rfl
    rw [hsame, Work.cached_map, hear, lanPacket_cached]
    cases lanWork.cached c d <;> rfl

theorem about_of_key {e : Event} {k : FragParserKey} (ip : Ipv4Addr) (h : e.key = some k) :
    e.about ip = decide (k.1 = ip) := by
  cases e with
  | scan => cases h
  | datagram d =>
    obtain ⟨f, hf, rfl⟩ := Option.map_eq_some_iff.mp h
    simp only [Event.about, sourceOf, fragOf_eq_some.mp hf, Option.some.injEq]
    rfl

theorem source_of_lanPacket {s s' : FragParser} {d : InPacket} {srcIp dstIp : Ipv4Addr}
    {p : Packet} (h : lanPacket s d = .ok (some (srcIp, dstIp, p), s')) :
    sourceOf d = some srcIp := by
  by_cases hplain : ∃ v, ForwarderFrame.parse d.data = .ok (.ok (.ipv4 v))
  · obtain ⟨v, hv⟩ := hplain
    rw [lanPacket_ipv4 hv] at h
    cases h
    rw [sourceOf, hv]
  · by_cases hfrag : ∃ f, ForwarderFrame.parse d.data = .ok (.ok (.ipv4Frag f))
    · obtain ⟨f, hf⟩ := hfrag
      rw [lanPacket_frag hf, bind_eq_ok] at h
      obtain ⟨⟨r, _⟩, _, h⟩ := h
      cases r with
      | none => cases h
      | some r =>
        cases h
        rw [sourceOf, hf]
    · rw [lanPacket_none (not_exists.mp hplain) (not_exists.mp hfrag)] at h
      cases h

/-- What comes from elsewhere says nothing of the room of `ip`. -/
theorem tells_of_not_about {C : Crates} {ip : Ipv4Addr} {s s' : FragParser} {e : Event}
    {heard : Heard} (h : hear s e = .ok (heard, s')) (he : e.about ip = false) :
    heard.tells C ip = none := by
  cases e with
  | scan => cases he
  | datagram d =>
    obtain ⟨⟨p, _⟩, hp, h⟩ := bind_eq_ok.mp h
    cases h
    cases p with
    | none => rfl
    | some x =>
      obtain ⟨srcIp, dstIp, p⟩ := x
      have hsrc : srcIp ≠ ip := by
        rintro rfl
        simp [Event.about, source_of_lanPacket hp] at he
      exact if_neg fun hc => hsrc hc.2

/-- **A room is told by its own address.**  Where between two fragments of a key
there are fewer than fifty other keys, the room under an address is the one that
the plugin has when it gets nothing from other addresses. -/
theorem room_of_source {C : Crates} {es : List Event} (hes : Spaced 50 Event.key es)
    {l : LdnMitmPlugin} (h : new.play C es = .ok l) (ip : Ipv4Addr) :
    ∃ l', new.play C (es.filter (Event.about ip)) = .ok l' ∧
      l'.roomInfo.lookup ip = l.roomInfo.lookup ip := by
  obtain ⟨out, hrun, hrooms⟩ := of_play h
  have hspaced : Spaced 50 hearing.key es := hes
  obtain ⟨s, hrun'⟩ := hspaced.restrict_embed FragParser.mk hear_cached (Event.about ip)
    (fun i j k hi hj => by rw [about_of_key ip hi, about_of_key ip hj]) hrun
  obtain ⟨l', hl'⟩ := (play_returns C _).mpr ⟨_, hrun'⟩
  obtain ⟨out', hout', hrooms'⟩ := of_play hl'
  refine ⟨l', hl', ?_⟩
  have heq : out' = out.filter fun x => Event.about ip x.1 := by
    have hsame := hout'.symm.trans hrun'
    exact (Prod.mk.inj (Except.ok.inj hsame)).1
  rw [hrooms ip, hrooms' ip, heq, latest_map, latest_map, latest_filter]
  intro x hx habout
  obtain ⟨_, _, hheard⟩ := of_mem_run hrun hx
  exact tells_of_not_about hheard habout

/-- An answer to the scan from `10.13.37.n`, of an empty room. -/
def answerPacket (n : UInt8) : Packet :=
  [0x45, 0, 0x04, 0xa8, 0, 0, 0, 0, 64, 17, 0, 0, 10, 13, 37, n, 10, 13, 37, 0,
    0x2c, 0xbc, 0x2c, 0xbc, 0x04, 0x94, 0, 0] ++ scanResponse (List.replicate 0x480 0)

def answerFrom (n : UInt8) : InPacket := ⟨ForwarderType.ipv4 :: answerPacket n, sampleClient⟩

/-- One half of it. -/
def answerHalf (n : UInt8) (j : Nat) : InPacket :=
  ⟨fragmentFrame (answerPacket n) 600 7 j, sampleClient⟩

/-- Three answers to a scan, two of them in halves that are mixed. -/
def answered : List Event :=
  [.scan, .datagram (answerHalf 100 1), .datagram (answerHalf 102 0), .datagram (answerFrom 101),
    .datagram (answerHalf 102 1), .datagram (answerHalf 100 0)]

set_option maxRecDepth 10000 in
theorem play_answered : ∃ l, new.play .byLayout answered = .ok l ∧
    l.roomInfo.keys = [⟨10, 13, 37, 100⟩, ⟨10, 13, 37, 102⟩, ⟨10, 13, 37, 101⟩] := ⟨_, rfl, rfl⟩

theorem room_of_source_answered : ∃ l l', new.play .byLayout answered = .ok l ∧
    new.play .byLayout (answered.filter (Event.about ⟨10, 13, 37, 100⟩)) = .ok l' ∧
    l'.roomInfo.lookup ⟨10, 13, 37, 100⟩ = l.roomInfo.lookup ⟨10, 13, 37, 100⟩ := by
  have hspaced : Spaced 50 Event.key answered := spaced_of_length (by decide)
  obtain ⟨l, hl, _⟩ := play_answered
  obtain ⟨l', hl', hlookup⟩ := room_of_source hspaced hl ⟨10, 13, 37, 100⟩
  exact ⟨l, l', hl, hl', hlookup⟩

/-! ### What is listed -/

end LdnMitmPlugin

theorem Ipv4Addr.splitOn_toString (ip : Ipv4Addr) : ip.toString.toList.splitOn '.' =
    [ip.a, ip.b, ip.c, ip.d].map fun o => Nat.toDigits 10 o.toNat := by
  have hdot : ∀ n : Nat, '.' ∉ Nat.toDigits 10 n := fun n hn =>
    absurd (Nat.isDigit_of_mem_toDigits (by decide) (by decide) hn) (by decide)
  have hlist : ip.toString.toList =
      ['.'].intercalate ([ip.a, ip.b, ip.c, ip.d].map fun o => Nat.toDigits 10 o.toNat) := by
    rw [Ipv4Addr.toString, String.toList_intercalate, List.map_map]
    congr 1
    exact List.map_congr_left fun o _ => Nat.toList_repr
  rw [hlist]
  refine List.splitOn_intercalate '.' ?_ (by simp)
  intro digits hdigits
  obtain ⟨o, _, rfl⟩ := List.mem_map.mp hdigits
  exact hdot o.toNat

theorem Ipv4Addr.toString_injective : Function.Injective Ipv4Addr.toString := by
  intro x y h
  have hdigits : ∀ {o p : UInt8}, Nat.toDigits 10 o.toNat = Nat.toDigits 10 p.toNat → o = p := by
    intro o p hop
    have hread := congrArg (fun digits => Nat.ofDigitChars 10 digits 0) hop
    simp only [Nat.ofDigitChars_ten_toDigits] at hread
    exact UInt8.toNat_inj.mp hread
  have hsplit := x.splitOn_toString
  rw [h, y.splitOn_toString] at hsplit
  simp only [List.map_cons, List.map_nil, List.cons.injEq, and_true] at hsplit
  obtain ⟨ha, hb, hc, hd⟩ := hsplit
  cases x
  cases y
  rw [Ipv4Addr.mk.injEq]
  exact ⟨(hdigits ha).symm, (hdigits hb).symm, (hdigits hc).symm, (hdigits hd).symm⟩

/-- What every room has that is read of a description from `ip`. -/
structure LdnMitm.RoomInfo.Sound (C : Crates) (ip : Ipv4Addr) (info : NetworkInfo)
    (room : LdnMitm.RoomInfo) : Prop where
  ip : room.ip = ip.toString
  nodeCount : room.nodeCount = room.nodes.length
  /-- As many nodes as the description counts, and no more than eight. -/
  nodes : ∃ count, info.buffer[0x67]? = some count ∧ room.nodes.length = min count.toNat 8
  nodeCountMax : ∃ count, info.buffer[0x66]? = some count ∧
    room.nodeCountMax = (min count.toNat 8 : Nat)
  nodeId : ∀ node ∈ room.nodes, 0 ≤ node.nodeId ∧ node.nodeId < 256
  host : room.hostPlayerName = stringOrEmpty (untilZero ((info.buffer.drop 0x74).take 0x20))
  /-- The host is the first node. -/
  first : ∀ node, room.nodes.head? = some node → node.playerName = room.hostPlayerName
  contentId : room.contentId = C.hexEncode (info.buffer.take 8).reverse
  sessionId : room.sessionId = C.hexEncode ((info.buffer.drop 16).take 16)
  advertiseData : ∃ bytes : Packet, bytes.length ≤ 384 ∧ bytes <+: info.buffer.drop 0x26C ∧
    room.advertiseDataLen = bytes.length ∧ room.advertiseData = C.hexEncode bytes

namespace LdnMitmPlugin

/-- The name of the host is read where the name of the first node is. -/
theorem playerName_node_zero {info : NetworkInfo} (hi : 0x480 ≤ info.buffer.length) :
    NodeInfo.playerName ⟨(info.buffer.drop 0x68).take 0x40⟩ = info.hostPlayerName := by
  have hlen : 0xC + 0x20 ≤ ((info.buffer.drop 0x68).take 0x40).length := by
    rw [List.length_take, List.length_drop]
    omega
  have hsame : (((info.buffer.drop 0x68).take 0x40).drop 0xC).take 0x20 =
      (info.buffer.drop 0x74).take 0x20 := by
    rw [List.drop_take, List.drop_drop, List.take_take]
    rfl
  have hcut : slice ((info.buffer.drop 0x68).take 0x40) 0xC (0xC + 0x20) =
      slice info.buffer 0x74 (0x74 + 32) := by
    rw [slice_ok (by omega) hlen, slice_ok (by omega) (by omega)]
    exact congrArg Except.ok hsame
  exact congrArg (fun x : Exec Packet => x >>= fun data => pure (stringOrEmpty (untilZero data)))
    hcut

theorem nodeInfo_sound {n : LanProtocol.NodeInfo} {node : LdnMitm.NodeInfo}
    (h : nodeInfo n = .ok node) :
    (0 ≤ node.nodeId ∧ node.nodeId < 256) ∧ n.playerName = .ok node.playerName := by
  obtain ⟨ip, _, h⟩ := bind_eq_ok.mp h
  obtain ⟨id, _, h⟩ := bind_eq_ok.mp h
  obtain ⟨connected, _, h⟩ := bind_eq_ok.mp h
  obtain ⟨name, hname, h⟩ := bind_eq_ok.mp h
  cases h
  have hid := id.toNat_lt
  exact ⟨⟨by simp, by simp only; omega⟩, hname⟩

theorem toNat_cmpMin_eight (b : UInt8) : (cmpMin b 8).toNat = min b.toNat 8 := by
  have h8 : (8 : UInt8).toNat = 8 := rfl
  unfold cmpMin
  split
  · rename_i hb
    have := UInt8.le_iff_toNat_le.mp hb
    omega
  · rename_i hb
    have := mt UInt8.le_iff_toNat_le.mpr hb
    omega

theorem count_at {buffer : Packet} {i : Nat} {c : UInt8}
    (h : (do pure (cmpMin (← index buffer i) 8) : Exec UInt8) = .ok c) :
    ∃ count, buffer[i]? = some count ∧ c.toNat = min count.toNat 8 := by
  obtain ⟨b, hb, h⟩ := bind_eq_ok.mp h
  cases h
  unfold index at hb
  split at hb
  · rename_i x hx
    cases hb
    exact ⟨b, hx, toNat_cmpMin_eight b⟩
  · cases hb

/-- **What is read of a description is a room in order.** -/
theorem roomOf_sound {C : Crates} {ip : Ipv4Addr} {info : NetworkInfo} {room : LdnMitm.RoomInfo}
    (hi : 0x480 ≤ info.buffer.length) (h : roomOf C ip info = .ok room) :
    room.Sound C ip info := by
  obtain ⟨buffers, hbuffers, h⟩ := bind_eq_ok.mp h
  obtain ⟨nodes, hnodes, h⟩ := bind_eq_ok.mp h
  obtain ⟨content, hcontent, h⟩ := bind_eq_ok.mp h
  obtain ⟨host, hhost, h⟩ := bind_eq_ok.mp h
  obtain ⟨session, hsession, h⟩ := bind_eq_ok.mp h
  obtain ⟨countMax, hcountMax, h⟩ := bind_eq_ok.mp h
  obtain ⟨count, hcount, h⟩ := bind_eq_ok.mp h
  obtain ⟨len, hlen, h⟩ := bind_eq_ok.mp h
  obtain ⟨data, hdata, h⟩ := bind_eq_ok.mp h
  cases h
  rw [NetworkInfo.nodes_ok hi hcount] at hbuffers
  cases hbuffers
  have hall := forall₂_of_mapM hnodes
  have hlength : nodes.length = count.toNat := by
    rw [← hall.length_eq, List.length_map, List.length_range]
  refine ⟨rfl, by simp only [hlength], ?_, ?_, ?_, ?_, ?_, ?_, ?_, ⟨data, ?_, ?_, ?_, rfl⟩⟩
  · simp only [hlength]
    exact count_at hcount
  · obtain ⟨b, hb, hmax⟩ := count_at hcountMax
    exact ⟨b, hb, congrArg Nat.cast hmax⟩
  · intro node hnode
    obtain ⟨j, hj⟩ := List.mem_iff_getElem?.mp hnode
    obtain ⟨hlt, rfl⟩ := List.getElem?_eq_some_iff.mp hj
    exact (nodeInfo_sound (hall.get (by rw [hall.length_eq]; exact hlt) hlt)).1
  · rw [NetworkInfo.hostPlayerName, slice_ok (by omega) (by omega), ok_bind] at hhost
    exact (Except.ok.inj hhost).symm
  · intro node hnode
    obtain ⟨rest, rfl⟩ := List.head?_eq_some_iff.mp hnode
    obtain ⟨first, _, hfirst, _, hcons⟩ := List.forall₂_cons_right_iff.mp hall
    have hzero := congrArg (fun l => l[0]?) hcons
    rw [List.getElem?_map, List.getElem?_cons_zero, Option.map_eq_some_iff] at hzero
    obtain ⟨i, hrange, rfl⟩ := hzero
    obtain ⟨_, rfl⟩ := List.getElem?_eq_some_iff.mp hrange
    rw [List.getElem_range] at hfirst
    have hname := (nodeInfo_sound hfirst).2
    rw [playerName_node_zero hi, hhost] at hname
    exact (Except.ok.inj hname).symm
  · rw [NetworkInfo.contentIdBytes, slice_ok (by omega) (by omega), ok_bind,
      copyFromSlice_ok (by simp; omega), ok_bind] at hcontent
    cases hcontent
    simp
  · rw [NetworkInfo.sessionId, slice_ok (by omega) (by omega), ok_bind,
      copyFromSlice_ok (by simp; omega)] at hsession
    cases hsession
    simp
  · rw [NetworkInfo.length_advertiseData hlen hdata]
    exact NetworkInfo.advertiseDataLen_le hlen
  · have hle := NetworkInfo.advertiseDataLen_le hlen
    rw [NetworkInfo.advertiseData, hlen, ok_bind, slice_ok (by omega) (by omega)] at hdata
    rw [← Except.ok.inj hdata]
    exact List.take_prefix _ _
  · simp only [NetworkInfo.length_advertiseData hlen hdata]

/-- The packet is an answer, and has the description `info`. -/
def Describes (C : Crates) (p : Packet) (info : NetworkInfo) : Prop :=
  ∃ ip udp answer, C.ipv4Packet p = some ip ∧ ip.nextHeader = .udp ∧
    C.udpPacket ip.payload = some udp ∧ LdnPacket.new udp.payload = .ok (.ok answer) ∧
    answer.typ = 1 ∧ NetworkInfo.new answer.payload = .ok info

theorem describes_of_readRoom {C : Crates} {ip : Ipv4Addr} {p : Packet} {room : LdnMitm.RoomInfo}
    (h : readRoom C ip p = .ok (some room)) :
    ∃ info, Describes C p info ∧ roomOf C ip info = .ok room := by
  unfold readRoom at h
  split at h
  · cases h
  · rename_i v hv
    split at h
    · cases h
    · rename_i hnext
      split at h
      · cases h
      · rename_i u hu
        obtain ⟨r, hr, h⟩ := bind_eq_ok.mp h
        split at h
        · cases h
        · rename_i answer
          split at h
          · cases h
          · rename_i htyp
            split at h
            · cases h
            · rename_i info hinfo
              obtain ⟨room', hroom, h⟩ := bind_eq_ok.mp h
              cases h
              exact ⟨info, ⟨v, u, answer, hv, not_not.mp hnext, hu, hr, not_not.mp htyp, hinfo⟩,
                hroom⟩

theorem Describes.length {C : Crates} {p : Packet} {info : NetworkInfo} (h : Describes C p info) :
    0x480 ≤ info.buffer.length := by
  obtain ⟨_, _, _, _, _, _, _, _, hinfo⟩ := h
  exact NetworkInfo.length_of_new hinfo

theorem answer_of_tells {C : Crates} {ip : Ipv4Addr} {heard : Heard} {room : LdnMitm.RoomInfo}
    (h : heard.tells C ip = some (some room)) :
    ∃ p, heard = .packet (some (ip, LdnMitm.serverAddr, p)) ∧
      readRoom C ip p = .ok (some room) := by
  unfold Heard.tells at h
  split at h
  · cases h
  · cases h
  · rename_i srcIp dstIp p
    split at h
    · rename_i hip
      obtain ⟨rfl, rfl⟩ := hip
      split at h
      · rename_i hread
        cases h
        exact ⟨p, rfl, hread⟩
      · cases h
    · cases h

/-- **Every listed room is in order**: it stands under an address, and is what an
answer from there describes.  No two have the same address. -/
theorem rooms_sound {C : Crates} {es : List Event} {l : LdnMitmPlugin}
    (h : new.play C es = .ok l) :
    ∃ out, Keyed.run hear FragParser.new es = .ok (out, l.fragParser) ∧
      (∀ room ∈ l.rooms, ∃ ip, l.roomInfo.lookup ip = some room ∧ ∃ e p info,
        (e, Heard.packet (some (ip, LdnMitm.serverAddr, p))) ∈ out ∧ Describes C p info ∧
        room.Sound C ip info) ∧
      (l.rooms.map LdnMitm.RoomInfo.ip).Nodup := by
  obtain ⟨out, hrun, hrooms⟩ := of_play h
  have hsound : ∀ x ∈ l.roomInfo.entries, ∃ e p info,
      (e, Heard.packet (some (x.1, LdnMitm.serverAddr, p))) ∈ out ∧ Describes C p info ∧
      x.2.Sound C x.1 info := by
    rintro ⟨ip, room⟩ hx
    have hlookup := hrooms ip
    rw [AList.mem_lookup_iff.mpr hx] at hlookup
    obtain ⟨pre, heard, post, hout, htells, _⟩ :=
      latest_eq_some_iff.mp (Option.join_eq_some_iff.mp hlookup.symm)
    have hmem : heard ∈ out.map Prod.snd := by
      rw [hout]
      exact List.mem_append_right _ List.mem_cons_self
    obtain ⟨⟨e, _⟩, he, rfl⟩ := List.mem_map.mp hmem
    obtain ⟨p, hp, hread⟩ := answer_of_tells htells
    obtain ⟨info, hinfo, hroom⟩ := describes_of_readRoom hread
    exact ⟨e, p, info, hp ▸ he, hinfo, roomOf_sound hinfo.length hroom⟩
  refine ⟨out, hrun, ?_, ?_⟩
  · intro room hroom
    obtain ⟨x, hx, rfl⟩ := List.mem_map.mp hroom
    exact ⟨x.1, AList.mem_lookup_iff.mpr hx, hsound x hx⟩
  · have hips : l.rooms.map LdnMitm.RoomInfo.ip = l.roomInfo.keys.map Ipv4Addr.toString := by
      rw [rooms, AList.keys, List.keys, List.map_map, List.map_map]
      refine List.map_congr_left fun x hx => ?_
      obtain ⟨_, _, _, _, _, hroom⟩ := hsound x hx
      exact hroom.ip
    rw [hips]
    exact l.roomInfo.keys_nodup.map Ipv4Addr.toString_injective

theorem rooms_sound_answered : ∃ l, new.play .byLayout answered = .ok l ∧ l.rooms.length = 3 ∧
    ∀ room ∈ l.rooms, ∃ ip info, l.roomInfo.lookup ip = some room ∧
      room.Sound .byLayout ip info := by
  obtain ⟨l, hl, hkeys⟩ := play_answered
  have hlength := congrArg List.length hkeys
  rw [AList.keys, List.keys, List.length_map] at hlength
  obtain ⟨out, _, hrooms, _⟩ := rooms_sound hl
  refine ⟨l, hl, by rw [rooms, List.length_map]; exact hlength, fun room hroom => ?_⟩
  obtain ⟨ip, hlookup, _, _, info, _, _, hsound⟩ := hrooms room hroom
  exact ⟨ip, info, hlookup, hsound⟩

end LdnMitmPlugin

end SlpServer
