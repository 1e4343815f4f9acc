import SlpServer.Slp.Reassembly
import SlpServer.Plugin.Blocker
import SlpServer.Plugin.LdnMitm.Safety

/-!
# Fragments and plain packets

A LAN packet reaches a plugin in one `Ipv4` frame or in several `Ipv4Frag`
frames.  Both plugins that look into packets do the same with it either way
(`fragments_agree_with_plain`): they say `Ok` to every fragment but the last
missing one, and do with that one what they do with the plain packet.

The two plugins are instances of one shape, `Reacts`: `lanPacket`, and then a
reaction that sees the packet and its addresses only.  The result is proved
once, of that shape (`Reacts.runIn_fragments`).
-/

namespace SlpServer

open Rust Tiling FragParser

/-! ### Datagrams that are fragments -/

/-- The fragment a datagram is, if it is one. -/
def fragOf (d : InPacket) : Option Ipv4Frag :=
  match ForwarderFrame.parse d.data with
  | .ok (.ok (.ipv4Frag f)) => some f
  | _ => none

theorem fragOf_eq_some {d : InPacket} {f : Ipv4Frag} :
    fragOf d = some f ↔ ForwarderFrame.parse d.data = .ok (.ok (.ipv4Frag f)) := by
  unfold fragOf
  constructor
  · intro h
    split at h
    · rename_i g hg
      cases h
      exact hg
    · cases h
  · intro h
    rw [h]

/-- The fragments among some datagrams. -/
def fragments (ds : List InPacket) : List Ipv4Frag := ds.filterMap fragOf

theorem fragments_snoc {ds : List InPacket} {d : InPacket} {f : Ipv4Frag} (h : fragOf d = some f) :
    fragments (ds ++ [d]) = fragments ds ++ [f] := by
  rw [fragments, List.filterMap_append, List.filterMap_cons_some h]
  rfl

theorem fragments_snoc_none {ds : List InPacket} {d : InPacket} (h : fragOf d = none) :
    fragments (ds ++ [d]) = fragments ds := by
  rw [fragments, List.filterMap_append, List.filterMap_cons_none h, List.filterMap_nil,
    List.append_nil]
  rfl

theorem mem_fragments {ds : List InPacket} {f : Ipv4Frag} :
    f ∈ fragments ds ↔ ∃ d ∈ ds, fragOf d = some f := List.mem_filterMap

/-- The datagram is one of the fragments of `p` with identification `id`, cut
at `m` bytes, under the addresses of the IP header of `p`. -/
def CarriesFragment (p : Packet) (m : Nat) (id : UInt16) (d : InPacket) : Prop :=
  ∃ f, fragOf d = some f ∧ Honest p m (addrAt p 12, id) f.item ∧ f.item.dstIp = addrAt p 16

/-! ### The datagrams of a sender -/

/-- The `j`-th fragment of `p` as a sender frames it. -/
def fragmentFrame (p : Packet) (m : Nat) (id : UInt16) (j : Nat) : Packet :=
  ForwarderType.ipv4Frag ::
    ((p.drop 12).take 8 ++ bytes16 id.toNat ++ [UInt8.ofNat j, UInt8.ofNat (pieces m p)] ++
      bytes16 (chunk m p j).length ++ bytes16 m ++ chunk m p j)

theorem ForwarderFrame.parse_ipv4Frag {payload : Packet} (h16 : 16 ≤ payload.length)
    (hmax : payload.length ≤ 2047) : ∃ f, ForwarderFrame.parse (ForwarderType.ipv4Frag :: payload) =
      .ok (.ok (.ipv4Frag f)) ∧ f.payload = payload := by
  have hlen : 1 ≤ (ForwarderType.ipv4Frag :: payload).length ∧
      (ForwarderType.ipv4Frag :: payload).length ≤ defaultMaxLength := by
    rw [List.length_cons, defaultMaxLength]
    omega
  have hp : 16 ≤ payload.length ∧ payload.length ≤ defaultMaxLength :=
    ⟨h16, by rw [defaultMaxLength]; omega⟩
  refine ⟨⟨payload, hp⟩, ?_, rfl⟩
  rw [ForwarderFrame.parse, Parser.parse_of_bounds (T := ForwarderFrame) hlen]
  show ForwarderFrame.doParse _ = _
  rw [ForwarderFrame.doParse_cons, if_neg (by decide), if_neg (by decide), if_neg (by decide),
    if_pos rfl, Parser.parse_of_bounds (T := Ipv4Frag) hp]
  rfl

/-- Every part of every packet can be sent, cut at any length that leaves
room for the header and needs at most 255 parts. -/
theorem carriesFragment_frame {p : Packet} {m : Nat} (id : UInt16) {j : Nat} (h20 : 20 ≤ p.length)
    (hm : m ≤ 2031) (hpieces : pieces m p ≤ 255) (hj : j < pieces m p) (addr : SocketAddr) :
    CarriesFragment p m id ⟨fragmentFrame p m id j, addr⟩ := by
  have hchunk : (chunk m p j).length ≤ m := by
    rw [length_chunk]
    exact Nat.min_le_left _ _
  have hhead : (p.drop 12).take 8 = [p.getD 12 0, p.getD 13 0, p.getD 14 0, p.getD 15 0,
      p.getD 16 0, p.getD 17 0, p.getD 18 0, p.getD 19 0] := by
    rw [show 8 = 4 + 4 from rfl, List.take_add, take_four_drop 0 (by omega), List.drop_drop,
      take_four_drop 0 (by omega)]
    rfl
  have hpay : ∃ f, ForwarderFrame.parse (fragmentFrame p m id j) = .ok (.ok (.ipv4Frag f)) ∧
      f.payload = (p.drop 12).take 8 ++ bytes16 id.toNat ++
        [UInt8.ofNat j, UInt8.ofNat (pieces m p)] ++ bytes16 (chunk m p j).length ++ bytes16 m ++
          chunk m p j := ForwarderFrame.parse_ipv4Frag
    (by simp only [hhead, bytes16, List.length_append, List.length_cons, List.length_nil]; omega)
    (by simp only [hhead, bytes16, List.length_append, List.length_cons, List.length_nil]; omega)
  obtain ⟨f, hf, hpayload⟩ := hpay
  simp only [hhead, bytes16, List.cons_append, List.nil_append] at hpayload
  have hid : be16 (UInt8.ofNat (id.toNat / 256)) (UInt8.ofNat id.toNat) = id :=
    UInt16.toNat_inj.mp (be16_ofNat id.toNat_lt)
  refine ⟨f, fragOf_eq_some.mpr hf, ?_, ?_⟩
  · refine ⟨?_, ?_, ?_, ?_, ?_, ?_⟩
    · simp only [FragItem.key, Ipv4Frag.item, hpayload]
      exact Prod.ext rfl hid
    · simp only [Ipv4Frag.item, hpayload]
      show (UInt8.ofNat j).toNat < _
      rw [UInt8.toNat_ofNat']
      omega
    · simp only [Ipv4Frag.item, hpayload]
      show chunk m p j = chunk m p (UInt8.ofNat j).toNat
      rw [UInt8.toNat_ofNat', Nat.mod_eq_of_lt (by omega)]
    · simp only [FragItem.LenOk, Ipv4Frag.item, hpayload]
      exact be16_ofNat (by omega)
    · simp only [Ipv4Frag.item, hpayload]
      exact be16_ofNat (by omega)
    · simp only [Ipv4Frag.item, hpayload]
      show (UInt8.ofNat (pieces m p)).toNat = _
      rw [UInt8.toNat_ofNat', Nat.mod_eq_of_lt (by omega)]
  · simp only [Ipv4Frag.item, hpayload]
    rfl

/-! ### Plugins that react to packets -/

/-- Datagrams given to `in_packet` one after the other, with the verdicts. -/
def Plugin.runIn {P : Type} (plugin : Plugin P) :
    P → List InPacket → Exec (List (Except Unit Unit) × P)
  | s, [] => pure ([], s)
  | s, d :: ds => do
    let (v, s) ← plugin.inPacket s d
    let (vs, s) ← plugin.runIn s ds
    pure (v :: vs, s)

theorem Plugin.runIn_snoc {P : Type} {plugin : Plugin P} {s t : P} {ds : List InPacket}
    {vs : List (Except Unit Unit)} (h : plugin.runIn s ds = .ok (vs, t)) (d : InPacket) :
    plugin.runIn s (ds ++ [d]) = (do
      let (v, u) ← plugin.inPacket t d
      pure (vs ++ [v], u)) := by
  induction ds generalizing s vs with
  | nil =>
    cases h
    rfl
  | cons e ds ih =>
    obtain ⟨⟨v, s'⟩, hv, h⟩ := bind_eq_ok.mp h
    obtain ⟨⟨ws, t'⟩, hws, h⟩ := bind_eq_ok.mp h
    cases h
    rw [List.cons_append, runIn, hv, ok_bind]
    simp only [ih hws]
    cases plugin.inPacket t d <;> rfl

/-- A LAN packet and the addresses of the frame that brought it. -/
abbrev LanPacket := Ipv4Addr × Ipv4Addr × Packet

/-- The plugin reassembles, and what it does then depends on the packet at hand
and on the rest of its state only. -/
structure Reacts {P K : Type} (plugin : Plugin P) (mk : FragParser → K → P)
    (react : K → Option LanPacket → Exec (Except Unit Unit × K)) : Prop where
  inPacket : ∀ s k d, plugin.inPacket (mk s k) d = (do
    let (packet, s) ← lanPacket s d
    let (v, k) ← react k packet
    pure (v, mk s k))
  idle : ∀ k, react k none = .ok (.ok (), k)

section
variable {P K : Type} {plugin : Plugin P} {mk : FragParser → K → P}
  {react : K → Option LanPacket → Exec (Except Unit Unit × K)}

theorem Reacts.inPacket_plain (h : Reacts plugin mk react) (s : FragParser) (k : K) {p : Packet}
    (h20 : 20 ≤ p.length) (hmax : p.length ≤ 2047) {d : InPacket}
    (hd : d.data = ForwarderType.ipv4 :: p) :
    plugin.inPacket (mk s k) d = (do
      let (v, k) ← react k (some (addrAt p 12, addrAt p 16, p))
      pure (v, mk s k)) := by
  obtain ⟨v, hv, hpay⟩ := ForwarderFrame.parse_ipv4 h20 hmax
  rw [h.inPacket, lanPacket_ipv4 (hd ▸ hv), hpay]
  rfl

variable {p : Packet} {m : Nat} {id : UInt16} {s : FragParser} {k : K}

theorem since_fragments {ds : List InPacket} (hds : ∀ d ∈ ds, CarriesFragment p m id d) :
    since (addrAt p 12, id) (fragments ds) = ∅ := by
  apply since_of_forall
  intro f hf
  obtain ⟨d, hd, hfd⟩ := mem_fragments.mp hf
  obtain ⟨g, hg, hi, _⟩ := hds d hd
  rw [hfd] at hg
  cases hg
  exact hi.key

/-- As long as a part is missing, every fragment is accepted and the rest of
the state stays as it is. -/
theorem Reacts.runIn_incomplete (h : Reacts plugin mk react)
    (habs : s.cache.lookup (addrAt p 12, id) = none) {ds : List InPacket}
    (hds : ∀ d ∈ ds, CarriesFragment p m id d)
    (hnot : ¬ AllSeen p m (addrAt p 12, id) (fragments ds)) :
    ∃ s', plugin.runIn (mk s k) ds = .ok (List.replicate ds.length (.ok ()), mk s' k) ∧
      Entry p m (addrAt p 12, id) (fragments ds) s' := by
  induction ds using List.reverseRecOn with
  | nil => exact ⟨s, rfl, entry_nil habs⟩
  | append_singleton ds d ih =>
    have hds' : ∀ e ∈ ds, CarriesFragment p m id e := fun e he => hds e (by simp [he])
    obtain ⟨f, hf, hi, _⟩ := hds d (by simp)
    rw [fragments_snoc hf] at hnot ⊢
    obtain ⟨s₁, hrun, he⟩ := ih hds' fun hall => hnot (hall.snoc f)
    obtain ⟨s₂, hs₂, he₂⟩ := he.more hi (fun _ => by simp [since_fragments hds']) hnot
    refine ⟨s₂, ?_, he₂⟩
    rw [Plugin.runIn_snoc hrun, h.inPacket, lanPacket_frag (fragOf_eq_some.mp hf), hs₂]
    simp only [ok_bind, pure_eq_ok, Option.map_none, h.idle]
    rw [List.length_append, List.length_singleton, List.replicate_succ']

/-- The fragment that leaves no part missing is judged as the plain packet. -/
theorem Reacts.runIn_fragments (h : Reacts plugin mk react)
    (habs : s.cache.lookup (addrAt p 12, id) = none) {ds : List InPacket} {d : InPacket}
    (hds : ∀ e ∈ ds ++ [d], CarriesFragment p m id e)
    (hnot : ¬ AllSeen p m (addrAt p 12, id) (fragments ds))
    (hall : AllSeen p m (addrAt p 12, id) (fragments (ds ++ [d]))) :
    ∃ s', plugin.runIn (mk s k) (ds ++ [d]) = (do
      let (v, k) ← react k (some (addrAt p 12, addrAt p 16, p))
      pure (List.replicate ds.length (.ok ()) ++ [v], mk s' k)) := by
  have hds' : ∀ e ∈ ds, CarriesFragment p m id e := fun e he => hds e (by simp [he])
  obtain ⟨f, hf, hi, hdst⟩ := hds d (by simp)
  rw [fragments_snoc hf] at hall
  obtain ⟨s₁, hrun, he⟩ := h.runIn_incomplete habs hds' hnot
  obtain ⟨s₂, hs₂, _⟩ := he.last hi (fun _ => by simp [since_fragments hds']) hall
  have hsrc : f.item.srcIp = addrAt p 12 := congrArg Prod.fst hi.key
  refine ⟨s₂, ?_⟩
  rw [Plugin.runIn_snoc hrun, h.inPacket, lanPacket_frag (fragOf_eq_some.mp hf), hs₂]
  simp only [ok_bind, pure_eq_ok, Option.map_some, hsrc, hdst]
  cases react k (some (addrAt p 12, addrAt p 16, p)) <;> rfl

end

/-! ### The two plugins -/

theorem BlockerPlugin.reacts (C : Crates) :
    Reacts (BlockerPlugin.plugin C) BlockerPlugin.mk fun rules packet =>
      .ok (BlockerPlugin.verdict C rules (packet.map fun x => x.2.2), rules) where
  inPacket s rules d := BlockerPlugin.inPacket_eq C ⟨s, rules⟩ d
  idle _ := rfl

theorem LdnMitmPlugin.reacts (C : Crates) :
    Reacts (LdnMitmPlugin.plugin C) LdnMitmPlugin.mk fun rooms packet => (do
      let rooms ← LdnMitmPlugin.learnRoom C rooms packet
      pure (.ok (), rooms)) where
  inPacket s rooms d := by
    show LdnMitmPlugin.inPacket C ⟨s, rooms⟩ d = _
    unfold LdnMitmPlugin.inPacket
    cases lanPacket s d with
    | error e => rfl
    | ok x =>
      simp only [ok_bind]
      cases LdnMitmPlugin.learnRoom C rooms x.1 <;> rfl
  idle _ := rfl

/-- **Fragments and plain packet agree.**  Let the datagrams `ds ++ [d]` be
fragments of `p`, in any order and with repetitions, the last of them the first
to leave no part missing.  The blocker accepts all of `ds` and says of `d` what
it says of the plain packet; the LDN plugin ends with the rooms the plain packet
gives. -/
theorem fragments_agree_with_plain (C : Crates) {p : Packet} {m : Nat} {id : UInt16}
    (h20 : 20 ≤ p.length) (hmax : p.length ≤ 2047) {ds : List InPacket} {d : InPacket}
    (hds : ∀ e ∈ ds ++ [d], CarriesFragment p m id e)
    (hnot : ¬ AllSeen p m (addrAt p 12, id) (fragments ds))
    (hall : AllSeen p m (addrAt p 12, id) (fragments (ds ++ [d])))
    {plain : InPacket} (hplain : plain.data = ForwarderType.ipv4 :: p) :
    (∀ b b₀ : BlockerPlugin, b.fragParser.cache.lookup (addrAt p 12, id) = none →
      b₀.blockRules = b.blockRules →
      ∃ v b' b₀', (BlockerPlugin.plugin C).runIn b (ds ++ [d]) =
          .ok (List.replicate ds.length (.ok ()) ++ [v], b') ∧
        (BlockerPlugin.plugin C).inPacket b₀ plain = .ok (v, b₀')) ∧
    (∀ l l₀ : LdnMitmPlugin, l.fragParser.cache.lookup (addrAt p 12, id) = none →
      l₀.roomInfo = l.roomInfo →
      ∃ vs v l' l₀', (LdnMitmPlugin.plugin C).runIn l (ds ++ [d]) = .ok (vs, l') ∧
        (LdnMitmPlugin.plugin C).inPacket l₀ plain = .ok (v, l₀') ∧
        l'.roomInfo = l₀'.roomInfo) := by
  constructor
  · rintro ⟨s, _⟩ ⟨s₀, rules⟩ habs rfl
    obtain ⟨s', hs'⟩ := (BlockerPlugin.reacts C).runIn_fragments (k := rules) habs hds hnot hall
    exact ⟨_, _, _, hs', (BlockerPlugin.reacts C).inPacket_plain s₀ rules h20 hmax hplain⟩
  · rintro ⟨s, _⟩ ⟨s₀, rooms⟩ habs rfl
    obtain ⟨s', hs'⟩ := (LdnMitmPlugin.reacts C).runIn_fragments (k := rooms) habs hds hnot hall
    have h₀ := (LdnMitmPlugin.reacts C).inPacket_plain s₀ rooms h20 hmax hplain
    obtain ⟨rooms', hr⟩ := LdnMitmPlugin.learnRoom_returns C rooms
      (some (addrAt p 12, addrAt p 16, p))
    simp only [hr, ok_bind, pure_eq_ok] at hs' h₀
    exact ⟨_, _, _, _, hs', h₀, rfl⟩

/-- An IPv4 packet of 28 bytes: a UDP packet without data to port 5000. -/
def udpToPort5000 : Packet :=
  [0x45, 0, 0, 28, 0, 0, 0, 0, 64, 17, 0, 0, 10, 13, 37, 100, 10, 13, 37, 101,
    0x1f, 0x90, 0x13, 0x88, 0, 8, 0, 0]

def sampleClient : SocketAddr := .v4 ⟨192, 168, 1, 2⟩ 4000

/-- Its two halves, from one client. -/
def half (j : Nat) : InPacket := ⟨fragmentFrame udpToPort5000 14 7 j, sampleClient⟩

theorem carriesFragment_half {j : Nat} (hj : j < 2) :
    CarriesFragment udpToPort5000 14 7 (half j) :=
  carriesFragment_frame 7 (by decide) (by decide) (by decide) hj sampleClient

theorem fragments_agree_with_plain_refused :
    ∃ b', (BlockerPlugin.plugin .byLayout).runIn ⟨FragParser.new, [⟨.udp, 5000⟩]⟩
      [half 1, half 1, half 0] = .ok ([.ok (), .ok (), .error ()], b') := by
  have hplain : ∃ b', (BlockerPlugin.plugin .byLayout).inPacket
      ⟨FragParser.new, [⟨.udp, 5000⟩]⟩ ⟨ForwarderType.ipv4 :: udpToPort5000, sampleClient⟩ =
        .ok (.error (), b') := ⟨_, rfl⟩
  have hds : ∀ e ∈ [half 1, half 1] ++ [half 0], CarriesFragment udpToPort5000 14 7 e := by
    intro e he
    simp only [List.cons_append, List.nil_append, List.mem_cons, List.not_mem_nil] at he
    rcases he with rfl | rfl | rfl | he
    · exact carriesFragment_half (by decide)
    · exact carriesFragment_half (by decide)
    · exact carriesFragment_half (by decide)
    · exact he.elim
  have hall := (fragments_agree_with_plain .byLayout (by decide) (by decide) hds (by decide)
    (by decide) (show (⟨ForwarderType.ipv4 :: udpToPort5000, sampleClient⟩ : InPacket).data = _
      from rfl)).1
  obtain ⟨v, b', b₀', hrun, hv⟩ := hall ⟨FragParser.new, [⟨.udp, 5000⟩]⟩
    ⟨FragParser.new, [⟨.udp, 5000⟩]⟩ rfl rfl
  obtain ⟨b₁, hb₁⟩ := hplain
  rw [hb₁] at hv
  cases hv
  exact ⟨b', hrun⟩

end SlpServer
