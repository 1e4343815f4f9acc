import SlpServer.Plugin.LdnMitm.Plugin

/-!
# Reading a room never panics

The three checks on the way to a room, the header's, the exact size of what is
decompressed and the least size of a network description, are enough for every
offset behind them: `decoding_safe` for the packet and each field of its
description, and `readRoom_returns` for the room, for a UDP payload of any
bytes.
-/

namespace SlpServer

open Rust LanProtocol

namespace LanProtocol

/-! ### The decoder -/

theorem decompressLoop_returns (input : Packet) (leadZero : Bool) (pos : Nat) (output : Packet) :
    Returns (decompressLoop input leadZero pos output) := by
  induction input generalizing leadZero pos output with
  | nil => exact returns_pure _
  | cons i input ih =>
    unfold decompressLoop
    split
    · exact returns_pure _
    · rename_i hpos
      split
      · dsimp only
        split
        · exact returns_pure _
        · rename_i hsize
          have hroom : pos + (List.replicate i.toNat (0 : UInt8)).length ≤ output.length := by
            rw [List.length_replicate]
            omega
          have hswap := swapWithSlice_ok hroom
          rw [List.length_replicate] at hswap
          exact Returns.bind ⟨_, hswap⟩ fun _ _ => ih _ _ _
      · exact Returns.bind ⟨_, setIndex_ok i (by omega)⟩ fun _ _ => ih _ _ _

theorem decompress_returns (input output : Packet) : Returns (decompress input output) :=
  decompressLoop_returns input false 0 output

/-! ### The packet -/

theorem LdnHeader.check_returns (h : LdnHeader) : Returns h.check := by
  by_cases hlen : 12 ≤ h.buffer.length
  · rw [LdnHeader.check_of_long hlen]
    apply Returns.bind ⟨_, LdnHeader.magic_ok hlen⟩
    intro _ _
    split
    · exact returns_pure _
    · apply Returns.bind ⟨_, LdnHeader.len_ok hlen⟩
      intro _ _
      split <;> exact returns_pure _
  · exact ⟨_, LdnHeader.check_of_short (by omega)⟩

theorem LdnPacket.new_returns (payload : Packet) : Returns (LdnPacket.new payload) := by
  obtain ⟨r, hr⟩ := LdnHeader.check_returns ⟨payload⟩
  cases r with
  | error e => exact ⟨_, new_of_refused hr⟩
  | ok u =>
    rw [new_of_check hr]
    split
    · unfold unpack
      obtain ⟨x, hx⟩ := decompress_returns (payload.drop 12)
        (List.replicate (be16 (payload.getD 9 0) (payload.getD 8 0)).toNat 0)
      rw [hx]
      exact returns_ok _
    · exact returns_ok _

/-! ### The description -/

theorem NodeInfo.length_of_new {buffer : Packet} {n : NodeInfo}
    (h : NodeInfo.new buffer = .ok n) : 0x40 ≤ n.buffer.length := by
  rw [NodeInfo.new] at h
  split at h
  · cases h
  · cases h
    dsimp only
    omega

theorem NetworkInfo.length_of_new {buffer : Packet} {n : NetworkInfo}
    (h : NetworkInfo.new buffer = .ok n) : 0x480 ≤ n.buffer.length := by
  rw [NetworkInfo.new] at h
  split at h
  · cases h
  · cases h
    dsimp only
    omega

theorem NetworkInfo.buffer_of_new {buffer : Packet} {n : NetworkInfo}
    (h : NetworkInfo.new buffer = .ok n) : n.buffer = buffer := by
  rw [NetworkInfo.new] at h
  split at h
  · cases h
  · cases h
    rfl

theorem slice_bind_returns {β : Type} {xs : Packet} {a b : Nat} (hab : a ≤ b) (hb : b ≤ xs.length)
    {f : Packet → Exec β} (hf : ∀ ys, ys.length = b - a → Returns (f ys)) :
    Returns (slice xs a b >>= f) :=
  (slice_returns hab hb).bind fun ys hys => hf ys (length_of_slice hys)

section

variable {n : NodeInfo} (hn : 0x40 ≤ n.buffer.length)
include hn

theorem NodeInfo.ip_returns : Returns n.ip := by
  apply slice_bind_returns (by omega) (by omega)
  intro ys hys
  exact (getU32le_returns (by omega)).bind fun _ _ => returns_pure _

theorem NodeInfo.nodeId_returns : Returns n.nodeId := index_returns (by omega)

theorem NodeInfo.isConnected_returns : Returns n.isConnected :=
  (index_returns (by omega)).bind fun _ _ => returns_pure _

theorem NodeInfo.playerName_returns : Returns n.playerName :=
  slice_bind_returns (by omega) (by omega) fun _ _ => returns_pure _

end

section

variable {info : NetworkInfo} (hi : 0x480 ≤ info.buffer.length)
include hi

theorem NetworkInfo.contentIdBytes_returns : Returns info.contentIdBytes := by
  apply slice_bind_returns (by omega) (by omega)
  intro ys hys
  exact Returns.bind ⟨_, copyFromSlice_ok (by simp [hys])⟩ fun _ _ => returns_pure _

theorem NetworkInfo.sessionId_returns : Returns info.sessionId :=
  slice_bind_returns (by omega) (by omega) fun ys hys => ⟨_, copyFromSlice_ok (by simp [hys])⟩

theorem NetworkInfo.hostPlayerName_returns : Returns info.hostPlayerName :=
  slice_bind_returns (by omega) (by omega) fun _ _ => returns_pure _

theorem NetworkInfo.nodeCountMax_returns : Returns info.nodeCountMax :=
  (index_returns (by omega)).bind fun _ _ => returns_pure _

theorem NetworkInfo.nodeCount_returns : Returns info.nodeCount :=
  (index_returns (by omega)).bind fun _ _ => returns_pure _

omit hi in
theorem NetworkInfo.nodeCount_le {c : UInt8} (h : info.nodeCount = .ok c) : c.toNat ≤ 8 := by
  obtain ⟨b, _, h⟩ := bind_eq_ok.mp h
  cases h
  unfold cmpMin
  split
  · rename_i hb
    exact UInt8.le_iff_toNat_le.mp hb
  · decide

/-- The first eight nodes lie inside the description. -/
theorem NetworkInfo.node_eq {i : Nat} (h8 : i < 8) :
    info.node i = .ok ⟨(info.buffer.drop (0x68 + 0x40 * i)).take 0x40⟩ := by
  have hlen : ((info.buffer.drop (0x68 + 0x40 * i)).take 0x40).length = 0x40 := by
    rw [List.length_take, List.length_drop]
    omega
  have hcut : 0x68 + 0x40 * i + 0x40 - (0x68 + 0x40 * i) = 0x40 := by omega
  have hnew : NodeInfo.new ((info.buffer.drop (0x68 + 0x40 * i)).take 0x40) =
      .ok ⟨(info.buffer.drop (0x68 + 0x40 * i)).take 0x40⟩ := if_neg (by omega)
  simp only [NetworkInfo.node, slice_ok (show 0x68 + 0x40 * i ≤ 0x68 + 0x40 * i + 0x40 by omega)
    (show 0x68 + 0x40 * i + 0x40 ≤ info.buffer.length by omega), ok_bind, hcut, hnew]
  rfl

/-- The nodes, as many as counted and one behind the other. -/
theorem NetworkInfo.nodes_ok {c : UInt8} (hc : info.nodeCount = .ok c) : info.nodes =
    .ok ((List.range c.toNat).map fun i => ⟨(info.buffer.drop (0x68 + 0x40 * i)).take 0x40⟩) := by
  rw [NetworkInfo.nodes, hc, ok_bind]
  apply mapM_ok
  intro i him
  have h8 := NetworkInfo.nodeCount_le hc
  have hlt := List.mem_range.mp him
  exact NetworkInfo.node_eq hi (by omega)

theorem NetworkInfo.nodes_returns : Returns info.nodes := by
  obtain ⟨c, hc⟩ := NetworkInfo.nodeCount_returns hi
  exact ⟨_, NetworkInfo.nodes_ok hi hc⟩

theorem NetworkInfo.length_of_mem_nodes {ns : List NodeInfo} (h : info.nodes = .ok ns) :
    ∀ n ∈ ns, n.buffer.length = 0x40 := by
  obtain ⟨c, hc⟩ := NetworkInfo.nodeCount_returns hi
  have h8 := NetworkInfo.nodeCount_le hc
  rw [NetworkInfo.nodes_ok hi hc] at h
  cases h
  intro n hn
  obtain ⟨i, him, rfl⟩ := List.mem_map.mp hn
  have hlt := List.mem_range.mp him
  rw [List.length_take, List.length_drop]
  omega

theorem NetworkInfo.advertiseDataLen_returns : Returns info.advertiseDataLen := by
  apply slice_bind_returns (by omega) (by omega)
  intro ys hys
  exact (getU16le_returns (by omega)).bind fun _ _ => returns_pure _

omit hi in
theorem NetworkInfo.advertiseDataLen_le {c : UInt16} (h : info.advertiseDataLen = .ok c) :
    c.toNat ≤ 384 := by
  obtain ⟨b, _, h⟩ := bind_eq_ok.mp h
  obtain ⟨b', _, h⟩ := bind_eq_ok.mp h
  cases h
  unfold cmpMin
  split
  · rename_i hb
    exact UInt16.le_iff_toNat_le.mp hb
  · decide

theorem NetworkInfo.advertiseData_returns : Returns info.advertiseData := by
  apply (NetworkInfo.advertiseDataLen_returns hi).bind
  intro c hc
  have := NetworkInfo.advertiseDataLen_le hc
  exact slice_returns (by omega) (by omega)

omit hi in
theorem NetworkInfo.length_advertiseData {len : UInt16} {data : Packet}
    (hl : info.advertiseDataLen = .ok len) (hd : info.advertiseData = .ok data) :
    data.length = len.toNat := by
  rw [NetworkInfo.advertiseData, hl, ok_bind] at hd
  have hlen := length_of_slice hd
  omega

end

/-! ### From the datagram to the fields -/

/-- Every field of a node can be read. -/
structure NodeInfo.Readable (n : NodeInfo) : Prop where
  ip : Returns n.ip
  nodeId : Returns n.nodeId
  isConnected : Returns n.isConnected
  playerName : Returns n.playerName

/-- Every field of a description can be read, with as many nodes and as many
bytes of data as it counts. -/
structure NetworkInfo.Readable (info : NetworkInfo) : Prop where
  contentIdBytes : Returns info.contentIdBytes
  sessionId : Returns info.sessionId
  hostPlayerName : Returns info.hostPlayerName
  nodeCountMax : Returns info.nodeCountMax
  nodes : ∃ count ns, info.nodeCount = .ok count ∧ info.nodes = .ok ns ∧
    ns.length = count.toNat ∧ count.toNat ≤ 8 ∧
    ∀ i n, ns[i]? = some n → n.Readable ∧
      slice info.buffer (0x68 + 0x40 * i) (0x68 + 0x40 * (i + 1)) = .ok n.buffer
  advertiseData : ∃ len data, info.advertiseDataLen = .ok len ∧ info.advertiseData = .ok data ∧
    data.length = len.toNat ∧ len.toNat ≤ 384

theorem NodeInfo.readable {n : NodeInfo} (hn : 0x40 ≤ n.buffer.length) : n.Readable where
  ip := NodeInfo.ip_returns hn
  nodeId := NodeInfo.nodeId_returns hn
  isConnected := NodeInfo.isConnected_returns hn
  playerName := NodeInfo.playerName_returns hn

theorem NetworkInfo.readable {info : NetworkInfo} (hi : 0x480 ≤ info.buffer.length) :
    info.Readable where
  contentIdBytes := NetworkInfo.contentIdBytes_returns hi
  sessionId := NetworkInfo.sessionId_returns hi
  hostPlayerName := NetworkInfo.hostPlayerName_returns hi
  nodeCountMax := NetworkInfo.nodeCountMax_returns hi
  nodes := by
    obtain ⟨count, hcount⟩ := NetworkInfo.nodeCount_returns hi
    have h8 := NetworkInfo.nodeCount_le hcount
    have hnodes := NetworkInfo.nodes_ok hi hcount
    refine ⟨count, _, hcount, hnodes, by simp, h8, ?_⟩
    intro i n hin
    have hlen := NetworkInfo.length_of_mem_nodes hi hnodes n (List.mem_of_getElem? hin)
    refine ⟨NodeInfo.readable hlen.ge, ?_⟩
    rw [List.getElem?_map, Option.map_eq_some_iff] at hin
    obtain ⟨j, hj, rfl⟩ := hin
    obtain ⟨hic, rfl⟩ := List.getElem?_eq_some_iff.mp hj
    rw [List.length_range] at hic
    have hcut : 0x68 + 0x40 * (i + 1) - (0x68 + 0x40 * i) = 0x40 := by omega
    rw [List.getElem_range, slice_ok (by omega) (by omega), hcut]
  advertiseData := by
    obtain ⟨len, hlen⟩ := NetworkInfo.advertiseDataLen_returns hi
    obtain ⟨data, hdata⟩ := NetworkInfo.advertiseData_returns hi
    exact ⟨len, data, hlen, hdata, NetworkInfo.length_advertiseData hlen hdata,
      NetworkInfo.advertiseDataLen_le hlen⟩

/-- **Decoding a packet of any bytes never panics**, nor does reading the
description in its payload. -/
theorem decoding_safe (u : Packet) : ∃ r, LdnPacket.new u = .ok r ∧
    ∀ p, r = .ok p → ∀ info, NetworkInfo.new p.payload = .ok info →
      info.buffer = p.payload ∧ info.Readable := by
  obtain ⟨r, hr⟩ := LdnPacket.new_returns u
  refine ⟨r, hr, ?_⟩
  intro p _ info hinfo
  exact ⟨NetworkInfo.buffer_of_new hinfo,
    NetworkInfo.readable (NetworkInfo.length_of_new hinfo)⟩

/-- A response that is not compressed, and declares no length. -/
def scanResponse (payload : Packet) : Packet :=
  [0x00, 0x14, 0x45, 0x11, 1, 0, 0, 0, 0, 0, 0, 0] ++ payload

theorem new_scanResponse (payload : Packet) :
    LdnPacket.new (scanResponse payload) = .ok (.ok ⟨1, payload⟩) := by
  have hcheck : LdnHeader.check ⟨scanResponse payload⟩ = .ok (.ok ()) :=
    LdnHeader.check_eq_ok_iff.mpr ⟨by simp [scanResponse], rfl, 0, rfl, by simp [scanResponse]⟩
  rw [new_of_check hcheck]
  rfl

/-- A description with one node, called `Ada`, and three bytes of data. -/
def sampleDescription : Packet :=
  List.replicate 0x66 0 ++ [8, 1] ++
    [100, 37, 13, 10, 0, 0, 0, 0, 0, 0, 0, 1, 0x41, 0x64, 0x61] ++ List.replicate 0x1F3 0 ++
      [3, 0, 1, 2, 3] ++ List.replicate 0x211 0

set_option maxRecDepth 10000 in
theorem decoding_safe_sample : ∃ p info, LdnPacket.new (scanResponse sampleDescription) =
      .ok (.ok p) ∧ NetworkInfo.new p.payload = .ok info ∧ info.Readable ∧
    info.nodeCount = .ok 1 ∧ info.hostPlayerName = .ok "Ada" ∧
    info.advertiseData = .ok [1, 2, 3] := by
  obtain ⟨r, hr, hsafe⟩ := decoding_safe (scanResponse sampleDescription)
  have hnew := new_scanResponse sampleDescription
  rw [hnew] at hr
  cases hr
  have hinfo : NetworkInfo.new sampleDescription = .ok ⟨sampleDescription⟩ := rfl
  have hfields : (⟨sampleDescription⟩ : NetworkInfo).nodeCount = .ok 1 ∧
      (⟨sampleDescription⟩ : NetworkInfo).advertiseData = .ok [1, 2, 3] := ⟨rfl, rfl⟩
  have hname : (⟨sampleDescription⟩ : NetworkInfo).hostPlayerName = .ok "Ada" := by
    rw [NetworkInfo.hostPlayerName, slice_ok (by decide) (by decide), ok_bind]
    rfl
  exact ⟨_, _, hnew, hinfo, (hsafe _ rfl _ hinfo).2, hfields.1, hname, hfields.2⟩

end LanProtocol

/-! ### The room -/

namespace LdnMitmPlugin

theorem nodeInfo_returns {n : LanProtocol.NodeInfo} (hn : 0x40 ≤ n.buffer.length) :
    Returns (nodeInfo n) :=
  (NodeInfo.ip_returns hn).bind fun _ _ => (NodeInfo.nodeId_returns hn).bind fun _ _ =>
    (NodeInfo.isConnected_returns hn).bind fun _ _ =>
      (NodeInfo.playerName_returns hn).bind fun _ _ => returns_pure _

theorem roomOf_returns (C : Crates) (srcIp : Ipv4Addr) {info : NetworkInfo}
    (hi : 0x480 ≤ info.buffer.length) : Returns (roomOf C srcIp info) :=
  (NetworkInfo.nodes_returns hi).bind fun _ hns =>
    (Returns.mapM fun n hn => nodeInfo_returns
      (NetworkInfo.length_of_mem_nodes hi hns n hn).ge).bind fun _ _ =>
    (NetworkInfo.contentIdBytes_returns hi).bind fun _ _ =>
    (NetworkInfo.hostPlayerName_returns hi).bind fun _ _ =>
    (NetworkInfo.sessionId_returns hi).bind fun _ _ =>
    (NetworkInfo.nodeCountMax_returns hi).bind fun _ _ =>
    (NetworkInfo.nodeCount_returns hi).bind fun _ _ =>
    (NetworkInfo.advertiseDataLen_returns hi).bind fun _ _ =>
    (NetworkInfo.advertiseData_returns hi).bind fun _ _ => returns_pure _

/-- **Reading a room never panics**, whatever the packet. -/
theorem readRoom_returns (C : Crates) (srcIp : Ipv4Addr) (packet : Packet) :
    Returns (readRoom C srcIp packet) := by
  unfold readRoom
  split
  · exact returns_pure _
  · split
    · exact returns_pure _
    · split
      · exact returns_pure _
      · apply (LdnPacket.new_returns _).bind
        intro r _
        cases r with
        | error e => exact returns_pure _
        | ok p =>
          dsimp only
          split
          · exact returns_pure _
          · split
            · exact returns_pure _
            · rename_i info hnew
              exact (roomOf_returns C srcIp (NetworkInfo.length_of_new hnew)).bind
                fun _ _ => returns_pure _

theorem learnRoom_returns (C : Crates) (rooms : AList (fun _ : Ipv4Addr => LdnMitm.RoomInfo))
    (packet : Option (Ipv4Addr × Ipv4Addr × Packet)) : Returns (learnRoom C rooms packet) := by
  cases packet with
  | none => exact returns_pure _
  | some x =>
    obtain ⟨srcIp, dstIp, p⟩ := x
    rw [learnRoom]
    split
    · apply (readRoom_returns C srcIp p).bind
      intro r _
      cases r <;> exact returns_pure _
    · exact returns_pure _

end LdnMitmPlugin

end SlpServer
