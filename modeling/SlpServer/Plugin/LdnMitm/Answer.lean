import SlpServer.Plugin.LdnMitm.Compression
import SlpServer.Plugin.LdnMitm.Rooms

/-!
# Answers to the scan

`Network` is what the host of a room has to tell, `encode` the description it
sends, and `room` what is to be listed.  An answer carries the description as it
is, or compressed in a way that does not end in a single zero, and either way
`in_packet` lists that room (`answer_listed`).
-/

namespace SlpServer

open Rust LanProtocol

/-! ### Fields at fixed places -/

section
variable {b xs : Packet} {i j : Nat}

theorem slice_of_eq (pre post : Packet) (h : b = pre ++ (xs ++ post)) (hi : pre.length = i)
    (hj : i + xs.length = j) : slice b i j = .ok xs := by
  subst h hi hj
  rw [slice_ok (Nat.le_add_right _ _) (by simp), List.drop_left, Nat.add_sub_cancel_left,
    List.take_left]

theorem index_of_eq {x : UInt8} (pre post : Packet) (h : b = pre ++ (x :: post))
    (hi : pre.length = i) : index b i = .ok x := by
  subst h hi
  rw [index_ok 0 (by simp)]
  simp

/-- The bytes, and zeros up to length `n`. -/
def pad (n : Nat) (xs : Packet) : Packet := xs ++ List.replicate (n - xs.length) 0

theorem length_pad {n : Nat} (h : xs.length ≤ n) : (pad n xs).length = n := by
  rw [pad, List.length_append, List.length_replicate]
  omega

theorem untilZero_pad {n : Nat} (h : ∀ x ∈ xs, x ≠ 0) : untilZero (pad n xs) = xs := by
  have hxs : ∀ x ∈ xs, (x != 0) = true := by simpa using h
  rw [untilZero, pad, List.takeWhile_append_of_pos hxs, List.takeWhile_replicate]
  simp

end

namespace LdnMitm

/-- A player in a room. -/
structure Player where
  ip : Ipv4Addr
  nodeId : UInt8
  isConnected : Bool
  name : Packet
  length_name : name.length ≤ 0x20
  name_ne_zero : ∀ x ∈ name, x ≠ 0

/-- A room as its host knows it. -/
structure Network where
  contentId : Packet
  sessionId : Packet
  nodeCountMax : UInt8
  players : List Player
  advertiseData : Packet
  length_contentId : contentId.length = 8
  length_sessionId : sessionId.length = 16
  nodeCountMax_le : nodeCountMax ≤ 8
  length_players : players.length ≤ 8
  length_advertiseData : advertiseData.length ≤ 384

/-- The address in little endian, reserved bytes, id, state and name. -/
def Player.encode (p : Player) : Packet :=
  [p.ip.d, p.ip.c, p.ip.b, p.ip.a] ++ (List.replicate 6 0 ++
    ([p.nodeId, if p.isConnected then 1 else 0] ++ (pad 0x20 p.name ++ List.replicate 0x14 0)))

theorem Player.length_encode (p : Player) : p.encode.length = 0x40 := by
  simp only [encode, List.length_append, List.length_replicate, length_pad p.length_name]
  rfl

namespace Network

/-- What stands before the players. -/
def head (n : Network) : Packet :=
  n.contentId ++ List.replicate 8 0 ++ n.sessionId ++ List.replicate 0x46 0 ++
    [n.nodeCountMax, UInt8.ofNat n.players.length]

def nodes (n : Network) : Packet := n.players.flatMap Player.encode

/-- What stands behind them. -/
def tail (n : Network) : Packet :=
  List.replicate 2 0 ++ [UInt8.ofNat n.advertiseData.length,
    UInt8.ofNat (n.advertiseData.length / 256)] ++ pad 0x214 n.advertiseData

/-- The description in an answer. -/
def encode (n : Network) : Packet := n.head ++ (pad 0x200 n.nodes ++ n.tail)

/-- The room to be listed. -/
def room (C : Crates) (ip : Ipv4Addr) (n : Network) : RoomInfo where
  ip := ip.toString
  contentId := C.hexEncode n.contentId.reverse
  hostPlayerName := stringOrEmpty ((n.players.head?.map Player.name).getD [])
  sessionId := C.hexEncode n.sessionId
  nodeCountMax := n.nodeCountMax.toNat
  nodeCount := n.players.length
  nodes := n.players.map fun p =>
    ⟨p.ip.toString, p.nodeId.toNat, p.isConnected, stringOrEmpty p.name⟩
  advertiseDataLen := n.advertiseData.length
  advertiseData := C.hexEncode n.advertiseData

/-! ### Reading a player -/

theorem length_head (n : Network) : n.head.length = 0x68 := by
  simp only [head, List.length_append, List.length_replicate, n.length_contentId,
    n.length_sessionId]
  rfl

theorem length_nodes (n : Network) : n.nodes.length = 0x40 * n.players.length := by
  simp only [nodes, List.length_flatMap, Player.length_encode, List.map_const',
    List.sum_replicate_nat, Nat.mul_comm]

theorem length_tail (n : Network) : n.tail.length = 0x218 := by
  have hdata : n.advertiseData.length ≤ 0x214 := by
    have := n.length_advertiseData
    omega
  simp only [tail, List.length_append, List.length_replicate, length_pad hdata]
  rfl

theorem length_pad_nodes (n : Network) : (pad 0x200 n.nodes).length = 0x200 := by
  apply length_pad
  have := n.length_players
  rw [length_nodes]
  omega

theorem length_encode (n : Network) : n.encode.length = 0x480 := by
  simp only [encode, List.length_append, length_head, length_pad_nodes, length_tail]

end Network

/-! ### Reading a player -/

namespace Player

variable (p : Player)

def view : LanProtocol.NodeInfo := ⟨p.encode⟩

theorem view_ip : p.view.ip = .ok p.ip := by
  have hslice : slice p.view.buffer 0 4 = .ok [p.ip.d, p.ip.c, p.ip.b, p.ip.a] :=
    slice_of_eq [] _ rfl rfl rfl
  have ha := p.ip.a.toNat_lt
  have hb := p.ip.b.toNat_lt
  have hc := p.ip.c.toNat_lt
  have hd := p.ip.d.toNat_lt
  have hn : (UInt32.ofNat (((p.ip.a.toNat * 256 + p.ip.b.toNat) * 256 + p.ip.c.toNat) * 256 +
      p.ip.d.toNat)).toNat = ((p.ip.a.toNat * 256 + p.ip.b.toNat) * 256 + p.ip.c.toNat) * 256 +
        p.ip.d.toNat := UInt32.toNat_ofNat_of_lt (by simp only [UInt32.size]; omega)
  have hbyte : ∀ {m : Nat} {x : UInt8}, m % 256 = x.toNat → UInt8.ofNat m = x := by
    intro m x hm
    rw [← UInt8.toNat_inj, UInt8.toNat_ofNat']
    exact hm
  rw [LanProtocol.NodeInfo.ip, hslice]
  simp only [ok_bind, getU32le, pure_eq_ok, Except.ok.injEq]
  rw [hn, hbyte (x := p.ip.a) (by omega), hbyte (x := p.ip.b) (by omega),
    hbyte (x := p.ip.c) (by omega), hbyte (x := p.ip.d) (by omega)]

theorem view_nodeId : p.view.nodeId = .ok p.nodeId :=
  index_of_eq [p.ip.d, p.ip.c, p.ip.b, p.ip.a, 0, 0, 0, 0, 0, 0] _ rfl rfl

theorem view_isConnected : p.view.isConnected = .ok p.isConnected := by
  have hindex : index p.view.buffer 0xB = .ok (if p.isConnected then 1 else 0) :=
    index_of_eq [p.ip.d, p.ip.c, p.ip.b, p.ip.a, 0, 0, 0, 0, 0, 0, p.nodeId] _ rfl rfl
  rw [LanProtocol.NodeInfo.isConnected, hindex]
  cases p.isConnected <;> rfl

theorem view_playerName : p.view.playerName = .ok (stringOrEmpty p.name) := by
  have hslice : slice p.view.buffer 0xC (0xC + 0x20) = .ok (pad 0x20 p.name) :=
    slice_of_eq [p.ip.d, p.ip.c, p.ip.b, p.ip.a, 0, 0, 0, 0, 0, 0, p.nodeId,
      if p.isConnected then 1 else 0] _ rfl rfl (by rw [length_pad p.length_name])
  rw [LanProtocol.NodeInfo.playerName, hslice, ok_bind, untilZero_pad p.name_ne_zero]
  rfl

theorem nodeInfo_view : LdnMitmPlugin.nodeInfo p.view =
    .ok ⟨p.ip.toString, p.nodeId.toNat, p.isConnected, stringOrEmpty p.name⟩ := by
  rw [LdnMitmPlugin.nodeInfo, p.view_ip, p.view_nodeId, p.view_isConnected,
    p.view_playerName]
  rfl

end Player

/-! ### Reading a room -/

theorem take_drop_flatMap {players : List Player} {i : Nat} {p : Player}
    (h : players[i]? = some p) (rest : Packet) :
    ((players.flatMap Player.encode ++ rest).drop (0x40 * i)).take 0x40 = p.encode := by
  induction players generalizing i with
  | nil => cases h
  | cons q players ih =>
    rw [List.flatMap_cons, List.append_assoc]
    cases i with
    | zero =>
      cases h
      rw [Nat.mul_zero, List.drop_zero, List.take_append_of_le_length p.length_encode.ge,
        List.take_of_length_le p.length_encode.le]
    | succ i =>
      have hdrop : 0x40 * (i + 1) = q.encode.length + 0x40 * i := by
        rw [q.length_encode]
        omega
      rw [hdrop, List.drop_length_add_append, ih h]

namespace Network

variable (n : Network)

def view : LanProtocol.NetworkInfo := ⟨n.encode⟩

theorem length_view : 0x480 ≤ n.view.buffer.length := n.length_encode.ge

theorem toNat_length_players : (UInt8.ofNat n.players.length).toNat = n.players.length := by
  have := n.length_players
  rw [UInt8.toNat_ofNat']
  omega

theorem toNat_length_advertiseData :
    (UInt16.ofNat n.advertiseData.length).toNat = n.advertiseData.length := by
  have := n.length_advertiseData
  rw [UInt16.toNat_ofNat']
  omega

theorem view_nodeCount : n.view.nodeCount = .ok (UInt8.ofNat n.players.length) := by
  have hindex : index n.view.buffer 0x67 = .ok (UInt8.ofNat n.players.length) := index_of_eq
    (n.contentId ++ List.replicate 8 0 ++ n.sessionId ++ List.replicate 0x46 0 ++
      [n.nodeCountMax])
    (pad 0x200 n.nodes ++ n.tail)
    (by simp [view, encode, head])
    (by simp [n.length_contentId, n.length_sessionId])
  have hle : UInt8.ofNat n.players.length ≤ 8 := by
    rw [UInt8.le_iff_toNat_le, n.toNat_length_players]
    exact n.length_players
  rw [LanProtocol.NetworkInfo.nodeCount, hindex, ok_bind, cmpMin, if_pos hle]
  rfl

/-- The nodes are the players. -/
theorem view_nodes : n.view.nodes = .ok (n.players.map Player.view) := by
  rw [LanProtocol.NetworkInfo.nodes_ok n.length_view n.view_nodeCount, n.toNat_length_players]
  congr 1
  apply List.ext_getElem?
  intro i
  rw [List.getElem?_map, List.getElem?_map]
  by_cases hi : i < n.players.length
  · have hplayer := List.getElem?_eq_getElem hi
    have hbytes : (n.view.buffer.drop (0x68 + 0x40 * i)).take 0x40 = n.players[i].encode := by
      show ((n.head ++ (pad 0x200 n.nodes ++ n.tail)).drop (0x68 + 0x40 * i)).take 0x40 = _
      rw [← n.length_head, List.drop_length_add_append, pad, List.append_assoc]
      exact take_drop_flatMap hplayer _
    rw [List.getElem?_range hi, hplayer, Option.map_some, Option.map_some, hbytes, Player.view]
  · rw [List.getElem?_eq_none (by rw [List.length_range]; omega),
      List.getElem?_eq_none (by omega)]
    rfl

theorem view_nodeCountMax : n.view.nodeCountMax = .ok n.nodeCountMax := by
  have hindex : index n.view.buffer 0x66 = .ok n.nodeCountMax := index_of_eq
    (n.contentId ++ List.replicate 8 0 ++ n.sessionId ++ List.replicate 0x46 0)
    ([UInt8.ofNat n.players.length] ++ (pad 0x200 n.nodes ++ n.tail))
    (by simp [view, encode, head])
    (by simp [n.length_contentId, n.length_sessionId])
  rw [LanProtocol.NetworkInfo.nodeCountMax, hindex, ok_bind, cmpMin, if_pos n.nodeCountMax_le]
  rfl

theorem view_contentId : n.view.contentIdBytes = .ok n.contentId.reverse := by
  have hslice : slice n.view.buffer 0 8 = .ok n.contentId := slice_of_eq []
    (List.replicate 8 0 ++ (n.sessionId ++ (List.replicate 0x46 0 ++
      ([n.nodeCountMax, UInt8.ofNat n.players.length] ++ (pad 0x200 n.nodes ++ n.tail)))))
    (by simp [view, encode, head]) rfl (by rw [n.length_contentId])
  rw [LanProtocol.NetworkInfo.contentIdBytes, hslice, ok_bind,
    copyFromSlice_ok (by rw [List.length_replicate, n.length_contentId])]
  rfl

theorem view_sessionId : n.view.sessionId = .ok n.sessionId := by
  have hslice : slice n.view.buffer 16 32 = .ok n.sessionId := slice_of_eq
    (n.contentId ++ List.replicate 8 0)
    (List.replicate 0x46 0 ++ ([n.nodeCountMax, UInt8.ofNat n.players.length] ++
      (pad 0x200 n.nodes ++ n.tail)))
    (by simp [view, encode, head]) (by simp [n.length_contentId]) (by rw [n.length_sessionId])
  rw [LanProtocol.NetworkInfo.sessionId, hslice, ok_bind]
  exact copyFromSlice_ok (by rw [List.length_replicate, n.length_sessionId])

theorem view_hostPlayerName : n.view.hostPlayerName =
    .ok (stringOrEmpty ((n.players.head?.map Player.name).getD [])) := by
  have hfirst : (n.view.buffer.drop 0x68).take 0x40 = (n.nodes ++
      (List.replicate (0x200 - n.nodes.length) 0 ++ n.tail)).take 0x40 := by
    show ((n.head ++ (pad 0x200 n.nodes ++ n.tail)).drop 0x68).take 0x40 = _
    rw [← n.length_head, List.drop_left, pad, List.append_assoc]
  rw [← LdnMitmPlugin.playerName_node_zero n.length_view, hfirst, nodes]
  cases n.players with
  | nil => rfl
  | cons p players =>
    rw [List.flatMap_cons, List.append_assoc,
      List.take_append_of_le_length p.length_encode.ge,
      List.take_of_length_le p.length_encode.le]
    exact p.view_playerName

theorem length_before : (n.head ++ pad 0x200 n.nodes ++ List.replicate 2 0).length = 0x26A := by
  simp only [List.length_append, List.length_replicate, length_head, length_pad_nodes]

theorem view_advertiseDataLen :
    n.view.advertiseDataLen = .ok (UInt16.ofNat n.advertiseData.length) := by
  have hslice : slice n.view.buffer 0x26A (0x26A + 2) =
      .ok [UInt8.ofNat n.advertiseData.length, UInt8.ofNat (n.advertiseData.length / 256)] :=
    slice_of_eq _ (pad 0x214 n.advertiseData) (by simp [view, encode, tail])
      n.length_before rfl
  have hread : be16 (UInt8.ofNat (n.advertiseData.length / 256))
      (UInt8.ofNat n.advertiseData.length) = UInt16.ofNat n.advertiseData.length := by
    have := n.length_advertiseData
    rw [← UInt16.toNat_inj, be16_ofNat (by omega), n.toNat_length_advertiseData]
  have hle : UInt16.ofNat n.advertiseData.length ≤ 384 := by
    rw [UInt16.le_iff_toNat_le, n.toNat_length_advertiseData]
    exact n.length_advertiseData
  rw [LanProtocol.NetworkInfo.advertiseDataLen, hslice, ok_bind, getU16le, hread, ok_bind, cmpMin,
    if_pos hle]
  rfl

theorem view_advertiseData : n.view.advertiseData = .ok n.advertiseData := by
  rw [LanProtocol.NetworkInfo.advertiseData, n.view_advertiseDataLen, ok_bind]
  refine slice_of_eq (n.head ++ pad 0x200 n.nodes ++ List.replicate 2 0 ++
    [UInt8.ofNat n.advertiseData.length, UInt8.ofNat (n.advertiseData.length / 256)])
    (List.replicate (0x214 - n.advertiseData.length) 0)
    (by simp [view, encode, tail, pad]) ?_ ?_
  · rw [List.length_append, n.length_before]
    rfl
  · rw [n.toNat_length_advertiseData]

/-- **What is read of a description is its room.** -/
theorem roomOf_view (C : Crates) (ip : Ipv4Addr) :
    LdnMitmPlugin.roomOf C ip n.view = .ok (n.room C ip) := by
  have hnodes : (n.players.map Player.view).mapM LdnMitmPlugin.nodeInfo =
      .ok (n.players.map fun p =>
        ⟨p.ip.toString, p.nodeId.toNat, p.isConnected, stringOrEmpty p.name⟩) := by
    rw [List.mapM_map]
    exact mapM_ok fun p _ => p.nodeInfo_view
  rw [LdnMitmPlugin.roomOf, n.view_nodes, ok_bind, hnodes, ok_bind,
    n.view_contentId, ok_bind, n.view_hostPlayerName, ok_bind, n.view_sessionId, ok_bind,
    n.view_nodeCountMax, ok_bind, n.view_nodeCount, ok_bind, n.view_advertiseDataLen, ok_bind,
    n.view_advertiseData, ok_bind, n.toNat_length_players, n.toNat_length_advertiseData]
  rfl

/-! ### Answers -/

/-- The header of a response that is not compressed. -/
def responseHeader (len : Nat) : Packet :=
  [0x00, 0x14, 0x45, 0x11, 1, 0, UInt8.ofNat len, UInt8.ofNat (len / 256), 0, 0, 0, 0]

/-- The payload of an answer: the description as it is, or compressed.  Where the
compressed form ends in a single zero, the server does not read it. -/
inductive Answer (n : Network) : Packet → Prop
  | plain : Answer n (responseHeader n.encode.length ++ n.encode)
  | compressed {cs : List ZeroRun.Chunk} (hexpand : ZeroRun.expand cs = n.encode)
      (hend : ¬ EndsInSingleZero cs) (hlen : (ZeroRun.encode cs).length ≤ 65535) :
      Answer n (compressedHeader 1 (ZeroRun.encode cs).length n.encode.length ++
        ZeroRun.encode cs)

theorem new_response {payload : Packet} (h : payload.length ≤ 65535) :
    LdnPacket.new (responseHeader payload.length ++ payload) = .ok (.ok ⟨1, payload⟩) := by
  have hcheck : LdnHeader.check ⟨responseHeader payload.length ++ payload⟩ = .ok (.ok ()) := by
    refine LdnHeader.check_eq_ok_iff.mpr ⟨by simp [responseHeader], rfl, _, rfl, ?_⟩
    rw [be16_ofNat (by omega)]
    simp [responseHeader]
  rw [new_of_check hcheck]
  rfl

theorem new_answer {payload : Packet} (h : n.Answer payload) :
    LdnPacket.new payload = .ok (.ok ⟨1, n.encode⟩) := by
  have hlen := n.length_encode
  cases h with
  | plain => exact new_response (by omega)
  | @compressed cs hexpand hend hle =>
    rw [← hexpand] at hlen ⊢
    have hfits : LanProtocol.Fits cs
        (List.replicate (ZeroRun.expand cs).length (0 : UInt8)).length := by
      rw [fits_iff, List.length_replicate]
      exact ⟨Nat.le_refl _, fun he => absurd he hend⟩
    rw [new_compressed hle (by omega), unpack]
    obtain ⟨_, hrun⟩ | ⟨hno, _⟩ := decompress_encode cs
      (List.replicate (ZeroRun.expand cs).length 0)
    · rw [hrun]
      simp [Except.map]
    · exact absurd hfits hno

/-- **An answer is read as its room**, whichever way it comes. -/
theorem readRoom_answer {C : Crates} {p : Packet} {v : Ipv4View} {u : UdpView}
    (hv : C.ipv4Packet p = some v) (hudp : v.nextHeader = .udp)
    (hu : C.udpPacket v.payload = some u) (h : n.Answer u.payload) (ip : Ipv4Addr) :
    LdnMitmPlugin.readRoom C ip p = .ok (some (n.room C ip)) := by
  have hinfo : LanProtocol.NetworkInfo.new n.encode = .ok n.view :=
    if_neg (by rw [n.length_encode]; decide)
  simp only [LdnMitmPlugin.readRoom, hv, hudp, hu, n.new_answer h, hinfo, ok_bind, n.roomOf_view,
    ne_eq, not_true_eq_false, if_false]
  rfl

end Network

end LdnMitm

namespace LdnMitmPlugin

/-- The packet is for the server, and its UDP payload an answer with `n`. -/
structure AnswerPacket (C : Crates) (n : LdnMitm.Network) (p : Packet) : Prop where
  length : 20 ≤ p.length ∧ p.length ≤ 2047
  dst : addrAt p 16 = LdnMitm.serverAddr
  udp : ∃ v u, C.ipv4Packet p = some v ∧ v.nextHeader = .udp ∧
    C.udpPacket v.payload = some u ∧ n.Answer u.payload

theorem AnswerPacket.learnRoom {C : Crates} {n : LdnMitm.Network} {p : Packet}
    (h : AnswerPacket C n p) (rooms : AList fun _ : Ipv4Addr => LdnMitm.RoomInfo) :
    learnRoom C rooms (some (addrAt p 12, addrAt p 16, p)) =
      .ok (rooms.insert (addrAt p 12) (n.room C (addrAt p 12))) := by
  obtain ⟨v, u, hv, hudp, hu, ha⟩ := h.udp
  rw [LdnMitmPlugin.learnRoom, if_pos h.dst, n.readRoom_answer hv hudp hu ha]
  rfl

/-- **What a host tells is listed.**  An answer to the scan, in one frame, or in
fragments of a key that is not in the cache, is accepted and lists under the
address it comes from exactly the room its host has described. -/
theorem answer_listed {C : Crates} {n : LdnMitm.Network} {p : Packet} (h : AnswerPacket C n p)
    (l : LdnMitmPlugin) :
    (∀ d : InPacket, d.data = ForwarderType.ipv4 :: p → l.inPacket C d = .ok (.ok (),
      ⟨l.fragParser, l.roomInfo.insert (addrAt p 12) (n.room C (addrAt p 12))⟩)) ∧
    ∀ m id ds d, l.fragParser.cache.lookup (addrAt p 12, id) = none →
      (∀ e ∈ ds ++ [d], CarriesFragment p m id e) →
      ¬ FragParser.AllSeen p m (addrAt p 12, id) (fragments ds) →
      FragParser.AllSeen p m (addrAt p 12, id) (fragments (ds ++ [d])) →
      ∃ s, (plugin C).runIn l (ds ++ [d]) = .ok (List.replicate ds.length (.ok ()) ++ [.ok ()],
        ⟨s, l.roomInfo.insert (addrAt p 12) (n.room C (addrAt p 12))⟩) := by
  obtain ⟨h20, hmax⟩ := h.length
  constructor
  · intro d hd
    have hplain := (reacts C).inPacket_plain l.fragParser l.roomInfo h20 hmax hd
    rw [h.learnRoom] at hplain
    exact hplain
  · intro m id ds d habs hds hnot hall
    obtain ⟨s, hrun⟩ := (reacts C).runIn_fragments (k := l.roomInfo) habs hds hnot hall
    rw [h.learnRoom] at hrun
    exact ⟨s, hrun⟩

/-- A room of one player, called `Ada`. -/
def sampleNetwork : LdnMitm.Network where
  contentId := [0, 0xe0, 0x16, 0, 0x80, 0x6a, 0, 1]
  sessionId := List.replicate 16 7
  nodeCountMax := 8
  players := [⟨⟨10, 13, 37, 100⟩, 0, true, [0x41, 0x64, 0x61], by decide, by simp⟩]
  advertiseData := [1, 2, 3]
  length_contentId := rfl
  length_sessionId := rfl
  nodeCountMax_le := by decide
  length_players := by decide
  length_advertiseData := by decide

/-- Its answer, from `10.13.37.100`. -/
def samplePacket : Packet :=
  [0x45, 0, 0x04, 0xa8, 0, 0, 0, 0, 64, 17, 0, 0, 10, 13, 37, 100, 10, 13, 37, 0,
    0x2c, 0xbc, 0x2c, 0xbc, 0x04, 0x94, 0, 0] ++
      (LdnMitm.Network.responseHeader sampleNetwork.encode.length ++ sampleNetwork.encode)

set_option maxRecDepth 10000 in
theorem answerPacket_sample : AnswerPacket .byLayout sampleNetwork samplePacket where
  length := by decide
  dst := rfl
  udp := ⟨_, _, rfl, rfl, rfl, .plain⟩

/-- The same description, compressed. -/
def sampleCompressed : Packet :=
  [0, 0, 0xe0, 0x16, 0, 0, 0x80, 0x6a, 0, 0, 1, 0, 7] ++ List.replicate 16 7 ++
    [0, 0x45, 8, 1, 100, 37, 13, 10, 0, 6, 1, 0x41, 0x64, 0x61, 0, 255, 0, 242, 3, 0, 0, 1, 2, 3,
      0, 255, 0, 255, 0, 16]

def compressedPacket : Packet :=
  [0x45, 0, 0, 99, 0, 0, 0, 0, 64, 17, 0, 0, 10, 13, 37, 100, 10, 13, 37, 0,
    0x2c, 0xbc, 0x2c, 0xbc, 0, 79, 0, 0] ++
      (compressedHeader 1 sampleCompressed.length sampleNetwork.encode.length ++ sampleCompressed)

set_option maxRecDepth 10000 in
theorem answerPacket_compressed : AnswerPacket .byLayout sampleNetwork compressedPacket where
  length := by decide
  dst := rfl
  udp := by
    have hexpand : ZeroRun.expand ((ZeroRun.chunks sampleCompressed).getD []) =
        sampleNetwork.encode := rfl
    exact ⟨_, _, rfl, rfl, rfl, .compressed hexpand (by decide) (by decide)⟩

/-- One of its two fragments. -/
def compressedPart (j : Nat) : InPacket := ⟨fragmentFrame compressedPacket 60 7 j, sampleClient⟩

theorem carriesFragment_compressedPart {j : Nat} (hj : j < 2) :
    CarriesFragment compressedPacket 60 7 (compressedPart j) :=
  carriesFragment_frame 7 (by decide) (by decide) (by decide) hj sampleClient

theorem answer_listed_sample :
    new.inPacket .byLayout ⟨ForwarderType.ipv4 :: samplePacket, sampleClient⟩ =
      .ok (.ok (), ⟨FragParser.new, new.roomInfo.insert ⟨10, 13, 37, 100⟩
        (sampleNetwork.room .byLayout ⟨10, 13, 37, 100⟩)⟩) ∧
    ∃ s, (plugin .byLayout).runIn new [compressedPart 1, compressedPart 1, compressedPart 0] =
      .ok ([.ok (), .ok (), .ok ()], ⟨s, new.roomInfo.insert ⟨10, 13, 37, 100⟩
        (sampleNetwork.room .byLayout ⟨10, 13, 37, 100⟩)⟩) := by
  have hplain := (answer_listed answerPacket_sample new).1
    ⟨ForwarderType.ipv4 :: samplePacket, sampleClient⟩ rfl
  have hds : ∀ e ∈ [compressedPart 1, compressedPart 1] ++ [compressedPart 0],
      CarriesFragment compressedPacket 60 7 e := by
    intro e he
    simp only [List.cons_append, List.nil_append, List.mem_cons, List.not_mem_nil, or_false] at he
    rcases he with rfl | rfl | rfl <;> exact carriesFragment_compressedPart (by decide)
  exact ⟨hplain, (answer_listed answerPacket_compressed new).2 60 7
    [compressedPart 1, compressedPart 1] (compressedPart 0) rfl hds (by decide) (by decide)⟩

end LdnMitmPlugin

end SlpServer
