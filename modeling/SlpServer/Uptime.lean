import SlpServer.Main

/-!
# What stops the server

In a release build nothing ends a loop of the server but a failing socket and a
datagram that is a fragment and trips the reassembler of a plugin
(`stays_up_iff`).  Where every fragment tells its length, none does
(`stays_up_of_lengths`).
-/

namespace SlpServer

open Rust BoxPlugin FragParser

/-! ### One plugin -/

/-- The reassembler fails only on a fragment that trips it. -/
theorem lanPacket_returns_iff (s : FragParser) (d : InPacket) :
    Returns (lanPacket s d) ↔ ∀ f ∈ fragOf d, ¬ s.Trips f.item := by
  cases hd : fragOf d with
  | none =>
    obtain ⟨packet, hpacket⟩ := lanPacket_of_not_frag hd
    rw [hpacket]
    exact iff_of_true (returns_ok _) (fun f hf => by cases hf)
  | some f =>
    have hall : (∀ g ∈ some f, ¬ s.Trips g.item) ↔ ¬ s.Trips f.item := by simp
    rw [hall, ← process_ok_iff, lanPacket_frag (fragOf_eq_some.mp hd)]
    constructor
    · rintro ⟨x, hx⟩
      obtain ⟨y, hy, _⟩ := bind_eq_ok.mp hx
      exact ⟨y, hy⟩
    · intro h
      exact Returns.bind h fun _ _ => returns_pure _

section
variable {P K : Type} {plugin : Plugin P} {mk : FragParser → K → P}
  {react : K → Option LanPacket → Exec (Except Unit Unit × K)}

theorem Reacts.inPacket_returns_iff (h : Reacts plugin mk react)
    (hreact : ∀ k packet, Returns (react k packet)) (s : FragParser) (k : K) (d : InPacket) :
    Returns (plugin.inPacket (mk s k) d) ↔ Returns (lanPacket s d) := by
  rw [h.inPacket]
  constructor
  · rintro ⟨x, hx⟩
    obtain ⟨y, hy, _⟩ := bind_eq_ok.mp hx
    exact ⟨y, hy⟩
  · intro hs
    exact Returns.bind hs fun y _ => Returns.bind (hreact k y.1) fun _ _ => returns_pure _

theorem Reacts.of_inPacket (h : Reacts plugin mk react) {s : FragParser} {k : K} {d : InPacket}
    {v : Except Unit Unit} {p' : P} (hin : plugin.inPacket (mk s k) d = .ok (v, p')) :
    ∃ packet s' k', lanPacket s d = .ok (packet, s') ∧ p' = mk s' k' := by
  rw [h.inPacket] at hin
  obtain ⟨⟨packet, s'⟩, hs, hin⟩ := bind_eq_ok.mp hin
  obtain ⟨⟨_, k'⟩, _, ⟨⟩⟩ := bind_eq_ok.mp hin
  exact ⟨packet, s', k', hs, rfl⟩

end

namespace BoxPlugin

/-- The reassembler of a plugin. -/
def fragParser? : BoxPlugin → Option FragParser
  | ldnMitm p => some p.fragParser
  | traffic _ => none
  | blocker p => some p.fragParser

/-- The datagram is a fragment that trips the reassembler. -/
def Panics (d : InPacket) (p : BoxPlugin) : Prop :=
  ∃ s ∈ p.fragParser?, ∃ f ∈ fragOf d, s.Trips f.item

instance (d : InPacket) (p : BoxPlugin) : Decidable (p.Panics d) :=
  inferInstanceAs (Decidable (∃ s ∈ p.fragParser?, ∃ f ∈ fragOf d, s.Trips f.item))

variable {C : Crates} {checks : Bool} {d : InPacket} {p p' : BoxPlugin} {v : Except Unit Unit}

theorem not_panics_iff {s : FragParser} (hs : p.fragParser? = some s) :
    ¬ p.Panics d ↔ Returns (lanPacket s d) := by
  rw [lanPacket_returns_iff, Panics, hs]
  simp

theorem returns_box_iff {P : Type} {inner : Exec (Except Unit Unit × P)}
    {box : P → BoxPlugin} : Returns (do
      let (v, p) ← inner
      pure (v, box p)) ↔ Returns inner := by
  constructor
  · rintro ⟨x, hx⟩
    obtain ⟨y, hy, _⟩ := bind_eq_ok.mp hx
    exact ⟨y, hy⟩
  · intro h
    exact Returns.bind h fun _ _ => returns_pure _

/-- Without checks a plugin panics on such a datagram only. -/
theorem inPacket_returns_iff (C : Crates) (d : InPacket) (p : BoxPlugin) :
    Returns ((plugin C false).inPacket p d) ↔ ¬ p.Panics d := by
  cases p with
  | traffic inner =>
    refine iff_of_true ?_ (fun ⟨s, hs, _⟩ => by cases hs)
    have hinner : Returns (inner.inPacket false d) := by
      simp only [TrafficPlugin.Inner.inPacket, TrafficInfo.onDownload, addI32_false, ok_bind]
      exact returns_pure _
    exact returns_box_iff.mpr (Returns.bind hinner fun _ _ => returns_pure _)
  | blocker b =>
    rw [not_panics_iff rfl]
    exact returns_box_iff.trans ((BlockerPlugin.reacts C).inPacket_returns_iff
      (fun _ _ => returns_ok _) b.fragParser b.blockRules d)
  | ldnMitm l =>
    rw [not_panics_iff rfl]
    exact returns_box_iff.trans ((LdnMitmPlugin.reacts C).inPacket_returns_iff
      (fun k packet => Returns.bind (LdnMitmPlugin.learnRoom_returns C k packet)
        fun _ _ => returns_pure _) l.fragParser l.roomInfo d)

theorem outPacket_returns (C : Crates) (packet : Packet) (addrs : List SocketAddr)
    (p : BoxPlugin) : Returns ((plugin C false).outPacket p packet addrs) := by
  cases p with
  | traffic inner =>
    have hinner : Returns (inner.outPacket false packet addrs) := by
      simp only [TrafficPlugin.Inner.outPacket, TrafficInfo.onUpload, addI32_false,
        mulUsize_false, ok_bind]
      exact returns_pure _
    exact returns_box_iff.mpr (Returns.bind hinner fun _ _ => returns_pure _)
  | blocker b => exact returns_ok _
  | ldnMitm l => exact returns_ok _

/-! ### The loops over the plugins -/

theorem inPackets_returns_iff (C : Crates) (d : InPacket) (ps : List BoxPlugin) :
    Returns (inPackets (plugin C false) d ps) ↔ ∀ p ∈ ps, ¬ p.Panics d := by
  induction ps with
  | nil => exact iff_of_true (returns_ok _) (fun p hp => by cases hp)
  | cons p ps ih =>
    rw [List.forall_mem_cons, ← ih, ← inPacket_returns_iff C]
    constructor
    · rintro ⟨x, hx⟩
      obtain ⟨y, hy, hx⟩ := bind_eq_ok.mp hx
      obtain ⟨z, hz, _⟩ := bind_eq_ok.mp hx
      exact ⟨⟨y, hy⟩, ⟨z, hz⟩⟩
    · rintro ⟨hp, hps⟩
      exact Returns.bind hp fun _ _ => Returns.bind hps fun _ _ => returns_pure _

theorem outPackets_returns (C : Crates) (packet : Packet) (addrs : List SocketAddr)
    (ps : List BoxPlugin) : Returns (outPackets (plugin C false) packet addrs ps) := by
  induction ps with
  | nil => exact returns_ok _
  | cons p ps ih =>
    refine Returns.bind (outPacket_returns C packet addrs p) fun y _ => ?_
    dsimp only
    split
    · exact returns_pure _
    · exact Returns.bind ih fun _ _ => returns_pure _

/-! ### Plugins with true lengths -/

/-- Every fragment that the plugin keeps tells its length. -/
def Tidy (p : BoxPlugin) : Prop := ∀ s ∈ p.fragParser?, s.SlotsAll FragItem.LenOk

theorem Tidy.not_panics (h : p.Tidy) (hd : ∀ f ∈ fragOf d, f.item.LenOk) : ¬ p.Panics d := by
  rintro ⟨s, hs, f, hf, htrips⟩
  exact not_trips (h s hs) (hd f hf) htrips

theorem tidy_create (T : TypeId) : (create T).Tidy := by
  intro s hs
  cases T with
  | traffic => cases hs
  | ldnMitm | blocker =>
    cases hs
    exact slotsAll_new _

theorem Tidy.configure (h : p.Tidy) (c : Config) : (p.configure c).Tidy := by
  cases c with
  | addPlugin T =>
    show (if p.typeId = T then create T else p).Tidy
    split
    · exact tidy_create T
    · exact h
  | setBlockRules | scan | clearTraffic => cases p <;> exact h

theorem tidy_configureAll {ps ps' : List BoxPlugin} {c : Config} (h : ∀ p ∈ ps, p.Tidy)
    (hc : configureAll ps c = .ok ps') : ∀ p ∈ ps', p.Tidy := by
  have hmap : ∀ p ∈ ps.map fun p => p.configure c, p.Tidy := by
    intro p hp
    obtain ⟨p₀, hp₀, rfl⟩ := List.mem_map.mp hp
    exact (h p₀ hp₀).configure c
  cases c with
  | addPlugin T =>
    cases hc
    intro p hp
    rcases List.mem_cons.mp hp with rfl | hp
    · exact tidy_create T
    · exact h p (List.mem_of_mem_filter hp)
  | setBlockRules blockRules =>
    obtain ⟨_, _, ⟨⟩⟩ := bind_eq_ok.mp hc
    exact hmap
  | scan | clearTraffic =>
    cases hc
    exact hmap

theorem slotsAll_lanPacket {q : FragItem → Prop} {s s' : FragParser} {packet : Option LanPacket}
    (h : s.SlotsAll q) (hd : ∀ f ∈ fragOf d, q f.item) (hs : lanPacket s d = .ok (packet, s')) :
    s'.SlotsAll q := by
  cases hfrag : fragOf d with
  | none =>
    obtain ⟨packet', hpacket⟩ := lanPacket_of_not_frag hfrag
    rw [hpacket] at hs
    cases hs
    exact h
  | some f =>
    rw [lanPacket_frag (fragOf_eq_some.mp hfrag)] at hs
    obtain ⟨⟨_, s''⟩, hprocess, ⟨⟩⟩ := bind_eq_ok.mp hs
    exact h.process (hd f hfrag) hprocess

theorem Tidy.inPacket (h : p.Tidy) (hd : ∀ f ∈ fragOf d, f.item.LenOk)
    (hin : (plugin C checks).inPacket p d = .ok (v, p')) : p'.Tidy := by
  cases p with
  | traffic inner =>
    obtain ⟨_, _, ⟨⟩⟩ := bind_eq_ok.mp hin
    intro s hs
    cases hs
  | blocker b =>
    obtain ⟨_, hb, ⟨⟩⟩ := bind_eq_ok.mp hin
    obtain ⟨packet, s, k, hs, hb'⟩ := (BlockerPlugin.reacts C).of_inPacket hb
    intro s' hs'
    cases hs'
    rw [hb']
    exact slotsAll_lanPacket (h _ rfl) hd hs
  | ldnMitm l =>
    obtain ⟨_, hl, ⟨⟩⟩ := bind_eq_ok.mp hin
    obtain ⟨packet, s, k, hs, hl'⟩ := (LdnMitmPlugin.reacts C).of_inPacket hl
    intro s' hs'
    cases hs'
    rw [hl']
    exact slotsAll_lanPacket (h _ rfl) hd hs

theorem Tidy.outPacket {packet : Packet} {addrs : List SocketAddr} (h : p.Tidy)
    (hout : (plugin C checks).outPacket p packet addrs = .ok (v, p')) : p'.Tidy := by
  cases p with
  | traffic inner =>
    obtain ⟨_, _, ⟨⟩⟩ := bind_eq_ok.mp hout
    intro s hs
    cases hs
  | blocker | ldnMitm =>
    cases hout
    exact h

/-- What every plugin has and each call keeps, the table has after a loop. -/
theorem all_of_forall₂ {q : BoxPlugin → Prop} {R : BoxPlugin → BoxPlugin → Prop}
    {ps ps' : List BoxPlugin} (h : ∀ p ∈ ps, q p) (hR : ∀ p p', q p → R p p' → q p')
    (hps : List.Forall₂ R ps ps') : ∀ p ∈ ps', q p := by
  induction hps with
  | nil => exact h
  | cons hp _ ih =>
    rw [List.forall_mem_cons] at h ⊢
    exact ⟨hR _ _ h.1 hp, ih h.2⟩

end BoxPlugin

/-! ### The server -/

namespace Server

variable {C : Crates} {s s' : Server BoxPlugin} {l : Label}

/-- The datagram before the plugins, if there is one, trips none of them. -/
def Harmless (s : Server BoxPlugin) (l : Label) : Prop :=
  l = .filter → ∀ d, s.recv = .filtering d → ∀ p ∈ s.plugins, ¬ p.Panics d.packet

/-- One step of a server whose socket does not fail. -/
theorem up_step_iff (h : Step (plugin C false) s l s') (hup : s.Up)
    (hsocket : l = .receive → s'.recv ≠ .down) : s'.Up ↔ s.Harmless l := by
  cases h with
  | recvFails => exact absurd rfl (hsocket rfl)
  | @filter d order plugins refused hd horder hin =>
    refine iff_of_true ⟨RecvPhase.noConfusion, hup.2⟩ ?_
    intro _ d' hd' p hp
    rw [hd] at hd'
    cases hd'
    exact (inPackets_returns_iff C d.packet order).mp ⟨_, hin⟩ p (horder.mem_iff.mpr hp)
  | @filterPanics d order e plugins hd horder hin =>
    refine iff_of_false (fun hup' => hup'.1 rfl) fun hharmless => ?_
    have hall : ∀ p ∈ order, ¬ p.Panics d.packet :=
      fun p hp => hharmless rfl d hd p (horder.mem_iff.mp hp)
    obtain ⟨x, hx⟩ := (inPackets_returns_iff C d.packet order).mpr hall
    rw [hx] at hin
    cases hin
  | @crash jobs jobs' e src out addrs order p plugins hjobs he horder hout =>
    obtain ⟨x, hx⟩ := outPackets_returns C out.data addrs order
    rw [hx] at hout
    cases hout
  | receive | discard | pong | dispatch =>
    exact iff_of_true ⟨RecvPhase.noConfusion, hup.2⟩ (fun hl => by cases hl)
  | taskSends ht hstep hsend =>
    exact iff_of_true ⟨hup.1, (Chan.trySend_eq_ok hsend).2.1⟩ (fun hl => by cases hl)
  | take hrecv hjobs =>
    exact iff_of_true ⟨hup.1, (Chan.recv_eq_some hrecv).2.trans hup.2⟩ (fun hl => by cases hl)
  | tick | configure | task | close | route | sendLan | drop | sendTo | finish =>
    exact iff_of_true hup (fun hl => by cases hl)

/-- Every fragment received tells its length. -/
def Lengths (s : Server BoxPlugin) : Prop := ∀ d ∈ s.received, ∀ f ∈ fragOf d, f.item.LenOk

theorem Lengths.of_step (h : Step (plugin C false) s l s') (hs' : s'.Lengths) : s.Lengths := by
  cases h with
  | receive packet => exact fun d hd => hs' d (List.mem_append_left _ hd)
  | tick | configure | recvFails | filter | filterPanics | discard | pong | dispatch | task
  | taskSends | take | close | route | sendLan | drop | crash | sendTo | finish => exact hs'

theorem Lengths.harmless (h : s.Lengths) (hreach : (lts (plugin C false)).Reachable s)
    (htidy : ∀ p ∈ s.plugins, p.Tidy) (l : Label) : s.Harmless l := by
  intro _ d hd p hp
  have hmem : d.packet ∈ s.received := by
    rw [received_of_filtering hreach hd]
    exact List.mem_append_right _ List.mem_cons_self
  exact (htidy p hp).not_panics (h d.packet hmem)

theorem mem_received {d : InPacket} (h : d ∈ s.heard) : d ∈ s.received := by
  unfold heard at h
  split at h
  · exact List.mem_of_mem_dropLast h
  · exact h

theorem tidy_step (hreach : (lts (plugin C false)).Reachable s)
    (h : Step (plugin C false) s l s') (hl : l ≠ .configure) (hup : s'.Up) (hlengths : s'.Lengths)
    (htidy : ∀ p ∈ s.plugins, p.Tidy) : ∀ p ∈ s'.plugins, p.Tidy := by
  cases calls_of_step hreach hl h hup with
  | none hplugins => rwa [hplugins]
  | @inPacket d order refused horder hin hheard =>
    have hd : d ∈ s'.received := by
      apply mem_received
      rw [hheard]
      exact List.mem_append_right _ List.mem_cons_self
    refine all_of_forall₂ (fun p hp => htidy p (horder.mem_iff.mp hp)) ?_ (forall₂_inPackets hin)
    rintro p p' hp ⟨v, hv⟩
    exact hp.inPacket (hlengths d hd) hv
  | outPacket horder hout =>
    refine all_of_forall₂ (fun p hp => htidy p (horder.mem_iff.mp hp)) ?_ (forall₂_outPackets hout)
    rintro p p' hp ⟨v, hv⟩
    exact hp.outPacket hv

end Server

/-! ### The program -/

namespace App

/-- The program in a release build, with a socket that does not fail. -/
def delivering (C : Crates) (opt : Opt) : Lts App Label where
  init a := a = new opt
  step a l a' := Step C false a l a' ∧ (l = .server .receive → a'.udpServer.recv ≠ .down)

/-- The datagram before the plugins, if there is one, trips none of them. -/
def Harmless (a : App) : Label → Prop
  | .server l => a.udpServer.Harmless l
  | _ => True

variable {C : Crates} {opt : Opt} {a a' : App} {l : Label}

theorem up_step_iff (h : (delivering C opt).step a l a') (hup : a.udpServer.Up) :
    a'.udpServer.Up ↔ Harmless a l := by
  obtain ⟨hs, hsocket⟩ := h
  cases hs with
  | server hl hs => exact Server.up_step_iff hs hup fun hr => hsocket (congrArg Label.server hr)
  | startup | own => exact iff_of_true hup trivial

theorem up_new (opt : Opt) : (new opt).udpServer.Up := ⟨RecvPhase.noConfusion, rfl⟩

/-- **What stops the server.**  In a release build, and as long as the socket
delivers, all loops of the program go on exactly as long as no datagram that
reaches the plugins is a fragment that trips the reassembler of one of them. -/
theorem stays_up_iff {r : List (Label × App)} (hr : (delivering C opt).Run (new opt) r) :
    Lts.Always (fun a => a.udpServer.Up) (new opt) r ↔ Lts.Guarded Harmless (new opt) r :=
  Lts.always_iff_guarded (fun _ _ _ _ hup h => up_step_iff h hup) (.init rfl) (up_new opt) hr

/-- A fragment that claims three bytes and has none, before the LDN plugin. -/
theorem stays_up_iff_crash : ∃ r : List (Label × App),
    (delivering .byLayout sampleOpt).Run (new sampleOpt) r ∧
      (Lts.last (new sampleOpt) r).udpServer.received = [⟨crashingDatagram, sampleClient⟩] ∧
      ¬ Lts.Guarded Harmless (new sampleOpt) r := by
  have hrun : ∃ r : List (Label × App), (delivering .byLayout sampleOpt).Run (new sampleOpt) r ∧
      (Lts.last (new sampleOpt) r).udpServer.received = [⟨crashingDatagram, sampleClient⟩] ∧
      (Lts.last (new sampleOpt) r).udpServer.recv = .down :=
    ⟨[(.startup, _), (.server .receive, _), (.server .filter, _)],
      ⟨⟨.startup rfl rfl, fun hl => by cases hl⟩,
        ⟨.server Server.Label.noConfusion (.receive ⟨crashingDatagram, sampleClient⟩ rfl),
          fun _ => RecvPhase.noConfusion⟩,
        ⟨.server Server.Label.noConfusion (.filterPanics [] rfl (.refl _) rfl),
          fun hl => by cases hl⟩, trivial⟩, rfl, rfl⟩
  obtain ⟨r, hr, hreceived, hdown⟩ := hrun
  refine ⟨r, hr, hreceived, fun hharmless => ?_⟩
  have hup := ((stays_up_iff hr).mpr hharmless).last
  exact hup.1 hdown

/-- The invariant of `stays_up_of_lengths`. -/
structure Safe (C : Crates) (opt : Opt) (a : App) : Prop where
  reachable : (lts C false opt).Reachable a
  up : a.udpServer.Up
  tidy : ∀ p ∈ a.udpServer.plugins, p.Tidy

theorem Safe.harmless (h : Safe C opt a) (hlengths : a.udpServer.Lengths) (l : Label) :
    Harmless a l := by
  cases l with
  | server l => exact hlengths.harmless (server_of_reachable h.reachable) h.tidy l
  | startup | own => trivial

theorem Safe.step (h : Safe C opt a) (hlengths : a.udpServer.Lengths)
    (hlengths' : a'.udpServer.Lengths) (hs : (delivering C opt).step a l a') :
    Safe C opt a' := by
  have hup := (up_step_iff hs h.up).mpr (h.harmless hlengths l)
  refine ⟨h.reachable.step hs.1, hup, ?_⟩
  obtain ⟨hs, _⟩ := hs
  cases hs with
  | server hl hs =>
    exact Server.tidy_step (server_of_reachable h.reachable) hs hl hup hlengths' h.tidy
  | startup _ hc | own _ hc => exact tidy_configureAll h.tidy hc

theorem lengths_of_step (h : (delivering C opt).step a l a') (hlengths : a'.udpServer.Lengths) :
    a.udpServer.Lengths := by
  obtain ⟨hs, _⟩ := h
  cases hs with
  | server _ hs => exact hlengths.of_step hs
  | startup | own => exact hlengths

/-- **Where every fragment tells its length**, nothing stops the server. -/
theorem stays_up_of_lengths {r : List (Label × App)} (hr : (delivering C opt).Run (new opt) r)
    (hlengths : (Lts.last (new opt) r).udpServer.Lengths) :
    Lts.Always (fun a => a.udpServer.Up) (new opt) r := by
  have hall : Lts.Always (fun a => a.udpServer.Lengths) (new opt) r :=
    .of_last (fun _ _ _ h => lengths_of_step h) hr hlengths
  have hnew : Safe C opt (new opt) := ⟨.init rfl, up_new opt, fun p hp => by cases hp⟩
  exact (Lts.Always.of_always (fun _ _ _ h hq hq' hs => h.step hq hq' hs) hnew hr hall).imp
    fun _ h => h.up

/-- A fragment that tells its length, before the LDN plugin. -/
theorem stays_up_of_lengths_half : ∃ r : List (Label × App),
    (Lts.last (new sampleOpt) r).udpServer.received = [half 0] ∧
      Lts.Always (fun a => a.udpServer.Up) (new sampleOpt) r := by
  have hrun : ∃ r : List (Label × App), (delivering .byLayout sampleOpt).Run (new sampleOpt) r ∧
      (Lts.last (new sampleOpt) r).udpServer.received = [half 0] :=
    ⟨[(.startup, _), (.server .receive, _), (.server .filter, _)],
      ⟨⟨.startup rfl rfl, fun hl => by cases hl⟩,
        ⟨.server Server.Label.noConfusion (.receive (half 0) rfl), fun _ => RecvPhase.noConfusion⟩,
        ⟨.server Server.Label.noConfusion (.filter rfl (.refl _) rfl), fun hl => by cases hl⟩,
        trivial⟩, rfl⟩
  obtain ⟨r, hr, hreceived⟩ := hrun
  have hlengths : (Lts.last (new sampleOpt) r).udpServer.Lengths := by
    rw [Server.Lengths, hreceived]
    decide
  exact ⟨r, hreceived, stays_up_of_lengths hr hlengths⟩

end App

end SlpServer
