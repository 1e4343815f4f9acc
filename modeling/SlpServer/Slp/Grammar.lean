import SlpServer.Slp.Frame

/-!
# The grammar of the frames

Which datagrams `ForwarderFrame::parse` takes, by their first byte and their
length, and that a view of such a datagram reads each byte behind the type byte
at its place: the fields of a fragment and its data are those bytes.
-/

namespace SlpServer

open Rust

/-! ### What is accepted -/

/-- The first byte and the length of the datagrams that parse. -/
def Accepted (b : Packet) : Prop :=
  (1 ≤ b.length ∧ b.length ≤ 2048) ∧
  ((b[0]? = some 0 ∨ b[0]? = some 4 ∨ b[0]? = some 16) ∨
    (b[0]? = some 1 ∧ 21 ≤ b.length) ∨
    (b[0]? = some 2 ∧ b.length = 5) ∨
    (b[0]? = some 3 ∧ 17 ≤ b.length))

/-- The length is between the bounds of a view. -/
def Fits (T : Type) [Parser T] (n : Nat) : Prop :=
  Parser.minLength T ≤ n ∧ n ≤ Parser.maxLength T

/-- A parser of a view takes what is between its bounds. -/
theorem Keeps.parse_iff {T : Type} [Parser T] {payload : T → Packet} (hT : Keeps T payload)
    (bytes : Packet) :
    ∃ r, Parser.parse T bytes = .ok r ∧ ((∃ v, r = .ok v) ↔ Fits T bytes.length) := by
  by_cases h : Fits T bytes.length
  · obtain ⟨v, hv, _⟩ := hT bytes h
    exact ⟨.ok v, (Parser.parse_of_bounds h).trans hv, iff_of_true ⟨v, rfl⟩ h⟩
  · exact ⟨_, Parser.parse_of_not_bounds h, iff_of_false (by rintro ⟨v, ⟨⟩⟩) h⟩

theorem Keeps.accepts {T : Type} [Parser T] {payload : T → Packet} (hT : Keeps T payload)
    (make : T → ForwarderFrame) (rest : Packet) :
    ∃ r, (do pure ((← Parser.parse T rest).map make) : Exec (Except ParseError ForwarderFrame)) =
      .ok r ∧ ((∃ f, r = .ok f) ↔ Fits T rest.length) := by
  obtain ⟨r, hr, hiff⟩ := hT.parse_iff rest
  refine ⟨r.map make, by rw [hr]; rfl, ?_⟩
  rw [← hiff]
  cases r with
  | error e => exact iff_of_false (by rintro ⟨f, ⟨⟩⟩) (by rintro ⟨v, ⟨⟩⟩)
  | ok v => exact iff_of_true ⟨make v, rfl⟩ ⟨v, rfl⟩

/-- The length behind a first byte, as the parser checks it. -/
def Body (typ : UInt8) (n : Nat) : Prop :=
  if typ = ForwarderType.keepalive then True
  else if typ = ForwarderType.ipv4 then Fits Ipv4 n
  else if typ = ForwarderType.ping then Fits Ping n
  else if typ = ForwarderType.ipv4Frag then Fits Ipv4Frag n
  else typ = ForwarderType.authMe ∨ typ = ForwarderType.info

theorem ForwarderFrame.doParse_accepts (typ : UInt8) (rest : Packet) :
    ∃ r, ForwarderFrame.doParse (typ :: rest) = .ok r ∧
      ((∃ f, r = .ok f) ↔ Body typ rest.length) := by
  rw [ForwarderFrame.doParse_cons, Body]
  by_cases h0 : typ = ForwarderType.keepalive
  · rw [if_pos h0, if_pos h0]
    exact ⟨_, rfl, iff_of_true ⟨_, rfl⟩ trivial⟩
  rw [if_neg h0, if_neg h0]
  by_cases h1 : typ = ForwarderType.ipv4
  · rw [if_pos h1, if_pos h1]
    exact keeps_ipv4.accepts _ rest
  rw [if_neg h1, if_neg h1]
  by_cases h2 : typ = ForwarderType.ping
  · rw [if_pos h2, if_pos h2]
    exact keeps_ping.accepts _ rest
  rw [if_neg h2, if_neg h2]
  by_cases h3 : typ = ForwarderType.ipv4Frag
  · rw [if_pos h3, if_pos h3]
    exact keeps_ipv4Frag.accepts _ rest
  rw [if_neg h3, if_neg h3]
  by_cases h4 : typ = ForwarderType.authMe
  · rw [if_pos h4]
    exact ⟨_, rfl, iff_of_true ⟨_, rfl⟩ (.inl h4)⟩
  rw [if_neg h4]
  by_cases h5 : typ = ForwarderType.info
  · rw [if_pos h5]
    exact ⟨_, rfl, iff_of_true ⟨_, rfl⟩ (.inr h5)⟩
  · rw [if_neg h5]
    exact ⟨_, rfl, iff_of_false (by rintro ⟨f, ⟨⟩⟩) (not_or_intro h4 h5)⟩

/-- The bounds at the two levels of parsing come to those of the grammar. -/
theorem accepted_cons (typ : UInt8) (rest : Packet) :
    Accepted (typ :: rest) ↔ rest.length + 1 ≤ 2048 ∧ Body typ rest.length := by
  have hhead : (typ :: rest)[0]? = some typ := rfl
  have hipv4 : Fits Ipv4 rest.length ↔ 20 ≤ rest.length ∧ rest.length ≤ 2048 := Iff.rfl
  have hping : Fits Ping rest.length ↔ 4 ≤ rest.length ∧ rest.length ≤ 4 := Iff.rfl
  have hfrag : Fits Ipv4Frag rest.length ↔ 16 ≤ rest.length ∧ rest.length ≤ 2048 := Iff.rfl
  unfold Accepted Body
  rw [hhead, List.length_cons, hipv4, hping, hfrag]
  simp only [Option.some.injEq, ForwarderType.keepalive, ForwarderType.ipv4, ForwarderType.ping,
    ForwarderType.ipv4Frag, ForwarderType.authMe, ForwarderType.info]
  by_cases h0 : typ = 0
  · simp [h0]
  by_cases h1 : typ = 1
  · simp [h1]
    omega
  by_cases h2 : typ = 2
  · simp [h2]
    omega
  by_cases h3 : typ = 3
  · simp [h3]
    omega
  · simp [h0, h1, h2, h3]

/-- **`parse` takes exactly the datagrams of the grammar.** -/
theorem ForwarderFrame.parse_accepts (b : Packet) :
    ∃ r, ForwarderFrame.parse b = .ok r ∧ ((∃ f, r = .ok f) ↔ Accepted b) := by
  by_cases h : 1 ≤ b.length ∧ b.length ≤ defaultMaxLength
  · cases b with
    | nil => exact absurd h.1 (Nat.not_succ_le_zero 0)
    | cons typ rest =>
      obtain ⟨r, hr, hiff⟩ := ForwarderFrame.doParse_accepts typ rest
      refine ⟨r, (Parser.parse_of_bounds (T := ForwarderFrame) h).trans hr, ?_⟩
      rw [hiff, accepted_cons, and_iff_right]
      exact h.2
  · refine ⟨_, Parser.parse_of_not_bounds (T := ForwarderFrame) h, iff_of_false ?_ ?_⟩
    · rintro ⟨f, ⟨⟩⟩
    · intro ha
      exact h ha.1

/-! ### What the views read -/

/-- `Ipv4Addr::octets`. -/
def Ipv4Addr.octets (self : Ipv4Addr) : Packet := [self.a, self.b, self.c, self.d]

theorem drop_addrAt {p : Packet} {i : Nat} (h : i + 4 ≤ p.length) :
    p.drop i = (addrAt p i).octets ++ p.drop (i + 4) := by
  rw [← List.take_append_drop 4 (p.drop i), take_four_drop 0 h, List.drop_drop]
  rfl

theorem bytes16_be16 (hi lo : UInt8) : bytes16 (be16 hi lo).toNat = [hi, lo] := by
  have h1 := hi.toNat_lt
  have h2 := lo.toNat_lt
  rw [be16_toNat, bytes16]
  congr 1
  · rw [← UInt8.toNat_inj, UInt8.toNat_ofNat']
    omega
  · congr 1
    rw [← UInt8.toNat_inj, UInt8.toNat_ofNat']
    omega

theorem drop_numAt {p : Packet} {i : Nat} (h : i + 2 ≤ p.length) :
    p.drop i = bytes16 (numAt p i).toNat ++ p.drop (i + 2) := by
  rw [← List.take_append_drop 2 (p.drop i), take_two_drop 0 h, List.drop_drop, numAt, bytes16_be16]

theorem drop_getD {p : Packet} {i : Nat} (h : i + 1 ≤ p.length) :
    p.drop i = p.getD i 0 :: p.drop (i + 1) := by
  rw [List.drop_eq_getElem_cons h, List.getD_eq_getElem _ _ h]

/-- The fixed fields of a fragment, one behind the other. -/
def header (src dst : Ipv4Addr) (id : UInt16) (part totalPart : UInt8) (len pmtu : UInt16) :
    Packet :=
  src.octets ++ (dst.octets ++ (bytes16 id.toNat ++ (part :: totalPart ::
    (bytes16 len.toNat ++ bytes16 pmtu.toNat))))

/-- The fields and the data of a fragment are its bytes. -/
theorem Ipv4Frag.payload_eq (f : Ipv4Frag) : f.payload =
    header (addrAt f.payload 0) (addrAt f.payload 4) (numAt f.payload 8) (f.payload.getD 10 0)
      (f.payload.getD 11 0) (numAt f.payload 12) (numAt f.payload 14) ++ f.payload.drop 16 := by
  have h := f.bounds.1
  have h0 := drop_addrAt (p := f.payload) (i := 0) (by omega)
  have h4 := drop_addrAt (p := f.payload) (i := 4) (by omega)
  have h8 := drop_numAt (p := f.payload) (i := 8) (by omega)
  have h10 := drop_getD (p := f.payload) (i := 10) (by omega)
  have h11 := drop_getD (p := f.payload) (i := 11) (by omega)
  have h12 := drop_numAt (p := f.payload) (i := 12) (by omega)
  have h14 := drop_numAt (p := f.payload) (i := 14) h
  calc f.payload
    _ = f.payload.drop 0 := rfl
    _ = _ := by
      rw [h0, h4, h8, h10, h11, h12, h14]
      simp only [header, List.append_assoc, List.cons_append]

/-- No accessor of the frame panics, and what they read is the datagram `b`. -/
def ForwarderFrame.Safe (b : Packet) : ForwarderFrame → Prop
  | .ipv4 v => Returns v.srcIp ∧ Returns v.dstIp ∧ Returns v.outAddr ∧ v.data = b.tail
  | .ipv4Frag f => Returns f.outAddr ∧
    ∃ src dst id part totalPart len pmtu data, f.srcIp = .ok src ∧ f.dstIp = .ok dst ∧
      f.id = .ok id ∧ f.part = .ok part ∧ f.totalPart = .ok totalPart ∧ f.len = .ok len ∧
      f.pmtu = .ok pmtu ∧ f.data = .ok data ∧
      header src dst id part totalPart len pmtu ++ data = b.tail
  | .ping p => p.build = .ok b
  | .keepalive | .authMe | .info => True

theorem ForwarderFrame.ReadFrom.safe {b : Packet} {f : ForwarderFrame} (h : f.ReadFrom b) :
    f.Safe b := by
  cases f with
  | keepalive | authMe | info => trivial
  | ipv4 v =>
    rw [h]
    exact ⟨⟨_, v.srcIp_ok⟩, ⟨_, v.dstIp_ok⟩, ⟨_, v.outAddr_ok⟩, rfl⟩
  | ping p =>
    rw [h]
    exact p.build_ok
  | ipv4Frag f =>
    rw [h]
    exact ⟨⟨_, f.outAddr_ok⟩, _, _, _, _, _, _, _, _, f.srcIp_ok, f.dstIp_ok, f.id_ok, f.part_ok,
      f.totalPart_ok, f.len_ok, f.pmtu_ok, f.data_ok, f.payload_eq.symm⟩

/-- The byte that a frame begins with. -/
def ForwarderFrame.typ : ForwarderFrame → UInt8
  | .keepalive => ForwarderType.keepalive
  | .ipv4 _ => ForwarderType.ipv4
  | .ping _ => ForwarderType.ping
  | .ipv4Frag _ => ForwarderType.ipv4Frag
  | .authMe => ForwarderType.authMe
  | .info => ForwarderType.info

theorem ForwarderFrame.ReadFrom.head {b : Packet} {f : ForwarderFrame} (h : f.ReadFrom b) :
    b[0]? = some f.typ := by
  cases f with
  | keepalive | authMe | info =>
    rw [← List.head?_eq_getElem?]
    exact h
  | ipv4 | ping | ipv4Frag =>
    rw [show b = _ from h]
    rfl

/-- **The frame parser and its grammar**: `parse` never panics, takes exactly
the datagrams of the grammar, each as a frame of the type of its first byte, and
the views of what it takes are safe. -/
theorem ForwarderFrame.parse_grammar (b : Packet) : ∃ r, ForwarderFrame.parse b = .ok r ∧
    ((∃ f, r = .ok f) ↔ Accepted b) ∧ ∀ f, r = .ok f → b[0]? = some f.typ ∧ f.Safe b := by
  obtain ⟨r, hr, haccepted⟩ := ForwarderFrame.parse_accepts b
  obtain ⟨r', hr', hread⟩ := ForwarderFrame.parse_total b
  rw [hr] at hr'
  cases hr'
  exact ⟨r, hr, haccepted, fun f hf => ⟨(hread f hf).head, (hread f hf).safe⟩⟩

end SlpServer
