import SlpServer.Lib.Registry
import SlpServer.Plugin.LdnMitm.Rooms
import SlpServer.Plugin.Register

/-!
# The table of plugins

`add_plugin` and `get_plugin` of `slp/server.rs`: one plugin of each type, under
its type.  What happens to the table are datagrams and LAN packets, which the two
loops of the server pass to all plugins, and `Config`: what `main` does at the
start and the plugins' own tasks do later on.

`grown` is what one type of plugin comes to by such a history, by itself: it
starts with `add_plugin`.  `Follows` says that the table has just these plugins,
and every event keeps it (`Follows.config`, `Follows.inPackets`,
`Follows.outPackets`).
-/

namespace SlpServer

open Rust Registry

/-- The types of plugins. -/
inductive TypeId
  | ldnMitm
  | traffic
  | blocker
  deriving DecidableEq, Repr

/-- What happens to the table but for packets. -/
inductive Config
  | addPlugin (T : TypeId)
  | setBlockRules (blockRules : List Rule)
  /-- The scanner of the LDN plugin. -/
  | scan
  /-- The sampler of the traffic plugin. -/
  | clearTraffic
  deriving DecidableEq, Repr

inductive PluginEvent
  | config (c : Config)
  | inPacket (packet : InPacket)
  | outPacket (packet : Packet) (addrs : List SocketAddr)
  deriving DecidableEq, Repr

/-- It adds a plugin of type `T`. -/
def PluginEvent.adds (T : TypeId) (e : PluginEvent) : Option Unit :=
  if e = .config (.addPlugin T) then some () else none

/-- What the LDN plugin takes it for. -/
def PluginEvent.ldnMitm? : PluginEvent → Option LdnMitmPlugin.Event
  | .inPacket packet => some (.datagram packet)
  | .config .scan => some .scan
  | _ => none

/-- What the traffic plugin takes it for. -/
def PluginEvent.op? : PluginEvent → Option TrafficPlugin.Op
  | .inPacket packet => some (.inPacket packet)
  | .outPacket packet addrs => some (.outPacket packet addrs)
  | .config .clearTraffic => some .clearTraffic
  | _ => none

def PluginEvent.blockRules? : PluginEvent → Option (List Rule)
  | .config (.setBlockRules blockRules) => some blockRules
  | _ => none

namespace BoxPlugin

def typeId : BoxPlugin → TypeId
  | ldnMitm _ => .ldnMitm
  | traffic _ => .traffic
  | blocker _ => .blocker

/-- `PluginType::create`. -/
def create : TypeId → BoxPlugin
  | .ldnMitm => ldnMitm .new
  | .traffic => traffic .new
  | .blocker => blocker .new

/-- `UDPServer::add_plugin`. -/
def addPlugin (T : TypeId) (plugins : List BoxPlugin) : List BoxPlugin :=
  register typeId (create T) plugins

/-- `UDPServer::get_plugin`, up to the call of its function. -/
def getPlugin (T : TypeId) (plugins : List BoxPlugin) : Exec BoxPlugin :=
  unwrap (entry typeId T plugins)

/-- `downcast_mut`; `traffic?` is another. -/
def ldnMitm? : BoxPlugin → Option LdnMitmPlugin
  | ldnMitm p => some p
  | _ => none

/-- What it means for one plugin. -/
def configure (self : BoxPlugin) : Config → BoxPlugin
  | .addPlugin T => if self.typeId = T then create T else self
  | .setBlockRules blockRules => match self with
    | blocker p => blocker (p.setBlockRules blockRules)
    | p => p
  | .scan => match self with
    | ldnMitm p => ldnMitm p.scan
    | p => p
  | .clearTraffic => match self with
    | traffic p => traffic p.clearTraffic.2
    | p => p

/-- What it means for the table. -/
def configureAll (plugins : List BoxPlugin) : Config → Exec (List BoxPlugin)
  | .addPlugin T => pure (addPlugin T plugins)
  | .setBlockRules blockRules => do
    let _ ← getPlugin .blocker plugins
    pure (plugins.map fun p => p.configure (.setBlockRules blockRules))
  | c => pure (plugins.map fun p => p.configure c)

@[simp] theorem typeId_create (T : TypeId) : (create T).typeId = T := by cases T <;> rfl

@[simp] theorem typeId_configure (p : BoxPlugin) (c : Config) :
    (p.configure c).typeId = p.typeId := by
  cases c with
  | addPlugin T =>
    show (if p.typeId = T then create T else p).typeId = p.typeId
    split
    · rename_i h
      rw [typeId_create, h]
    · rfl
  | setBlockRules | scan | clearTraffic => cases p <;> rfl

section
variable {C : Crates} {checks : Bool} {p p' : BoxPlugin} {v : Except Unit Unit}

theorem typeId_inPacket {d : InPacket} (h : (plugin C checks).inPacket p d = .ok (v, p')) :
    p'.typeId = p.typeId := by
  cases p with
  | ldnMitm p | traffic p | blocker p =>
    obtain ⟨_, _, ⟨⟩⟩ := bind_eq_ok.mp h
    rfl

theorem typeId_outPacket {packet : Packet} {addrs : List SocketAddr}
    (h : (plugin C checks).outPacket p packet addrs = .ok (v, p')) : p'.typeId = p.typeId := by
  cases p with
  | ldnMitm p | traffic p | blocker p =>
    obtain ⟨_, _, ⟨⟩⟩ := bind_eq_ok.mp h
    rfl

end

/-! ### One plugin -/

/-- An event at one plugin. -/
def handle (C : Crates) (checks : Bool) (self : BoxPlugin) : PluginEvent → Exec BoxPlugin
  | .config c => pure (self.configure c)
  | .inPacket packet => do
    let (_, self) ← (plugin C checks).inPacket self packet
    pure self
  | .outPacket packet addrs => do
    let (_, self) ← (plugin C checks).outPacket self packet addrs
    pure self

/-- An event at the plugin of type `T`, if there is one. -/
def grow (C : Crates) (checks : Bool) (T : TypeId) (p : Option BoxPlugin) (e : PluginEvent) :
    Exec (Option BoxPlugin) :=
  match p with
  | some p => do pure (some (← p.handle C checks e))
  | none => pure (if e = .config (.addPlugin T) then some (create T) else none)

/-- The plugin of type `T` after some events. -/
def grown (C : Crates) (checks : Bool) (T : TypeId) (es : List PluginEvent) :
    Exec (Option BoxPlugin) := es.foldlM (grow C checks T) none

theorem grown_concat (C : Crates) (checks : Bool) (T : TypeId) (es : List PluginEvent)
    (e : PluginEvent) : grown C checks T (es ++ [e]) = (do
      let p ← grown C checks T es
      grow C checks T p e) := by
  rw [grown, List.foldlM_append]
  simp only [List.foldlM_cons, List.foldlM_nil, bind_pure]
  rfl

theorem grow_none {C : Crates} {checks : Bool} {T : TypeId} {e : PluginEvent} {p : BoxPlugin}
    (h : grow C checks T none e = .ok (some p)) : e = .config (.addPlugin T) ∧ p = create T := by
  unfold grow at h
  by_cases he : e = .config (.addPlugin T)
  · simp only [if_pos he] at h
    cases h
    exact ⟨he, rfl⟩
  · simp only [if_neg he] at h
    cases h

section
variable {C : Crates} {checks : Bool} {T : TypeId} {es : List PluginEvent} {p p' : BoxPlugin}

theorem typeId_handle {e : PluginEvent} (h : p.handle C checks e = .ok p') :
    p'.typeId = p.typeId := by
  cases e with
  | config c =>
    cases h
    exact typeId_configure p c
  | inPacket d =>
    obtain ⟨⟨v, _⟩, hv, ⟨⟩⟩ := bind_eq_ok.mp h
    exact typeId_inPacket hv
  | outPacket packet addrs =>
    obtain ⟨⟨v, _⟩, hv, ⟨⟩⟩ := bind_eq_ok.mp h
    exact typeId_outPacket hv

theorem typeId_of_grown (h : grown C checks T es = .ok (some p)) : p.typeId = T := by
  induction es using List.reverseRecOn generalizing p with
  | nil => cases h
  | append_singleton es e ih =>
    rw [grown_concat] at h
    obtain ⟨o, ho, h⟩ := bind_eq_ok.mp h
    cases o with
    | none =>
      obtain ⟨_, rfl⟩ := grow_none h
      exact typeId_create T
    | some p₀ =>
      obtain ⟨_, hp, ⟨⟩⟩ := bind_eq_ok.mp h
      exact (typeId_handle hp).trans (ih ho)

/-- **A plugin is as its events since it was added have made it.** -/
theorem of_grown (h : grown C checks T es = .ok (some p)) :
    (since (PluginEvent.adds T) es).foldlM (handle C checks) (create T) = .ok p := by
  induction es using List.reverseRecOn generalizing p with
  | nil => cases h
  | append_singleton es e ih =>
    rw [grown_concat] at h
    obtain ⟨o, ho, h⟩ := bind_eq_ok.mp h
    by_cases he : e = .config (.addPlugin T)
    · rw [since_concat_some es (if_pos he)]
      cases o with
      | none =>
        obtain ⟨_, rfl⟩ := grow_none h
        rfl
      | some p₀ =>
        obtain ⟨_, hp, ⟨⟩⟩ := bind_eq_ok.mp h
        subst he
        cases hp
        show Except.ok (create T) = .ok (if p₀.typeId = T then create T else p₀)
        rw [if_pos (typeId_of_grown ho)]
    · cases o with
      | none => exact absurd (grow_none h).1 he
      | some p₀ =>
        obtain ⟨_, hp, ⟨⟩⟩ := bind_eq_ok.mp h
        rw [since_concat_none es (if_neg he), List.foldlM_append, ih ho, ok_bind, List.foldlM_cons,
          hp]
        rfl

/-- Only a plugin that was added is there, -/
theorem mem_of_grown (h : grown C checks T es = .ok (some p)) : .config (.addPlugin T) ∈ es := by
  induction es using List.reverseRecOn generalizing p with
  | nil => cases h
  | append_singleton es e ih =>
    rw [grown_concat] at h
    obtain ⟨o, ho, h⟩ := bind_eq_ok.mp h
    cases o with
    | none =>
      rw [(grow_none h).1]
      exact List.mem_append_right _ List.mem_cons_self
    | some p₀ => exact List.mem_append_left _ (ih ho)

/-- and every plugin that was. -/
theorem exists_of_grown {o : Option BoxPlugin} (h : grown C checks T es = .ok o)
    (hmem : .config (.addPlugin T) ∈ es) : ∃ p, o = some p := by
  induction es using List.reverseRecOn generalizing o with
  | nil => cases hmem
  | append_singleton es e ih =>
    rw [grown_concat] at h
    obtain ⟨o₀, ho, h⟩ := bind_eq_ok.mp h
    cases o₀ with
    | some p₀ =>
      obtain ⟨p, _, ⟨⟩⟩ := bind_eq_ok.mp h
      exact ⟨p, rfl⟩
    | none =>
      rcases List.mem_append.mp hmem with hmem | hmem
      · obtain ⟨_, ⟨⟩⟩ := ih ho hmem
      · simp only [grow, if_pos (List.mem_singleton.mp hmem).symm] at h
        cases h
        exact ⟨_, rfl⟩

end

/-! ### The table -/

/-- The table has what the types of plugins have come to. -/
structure Follows (C : Crates) (checks : Bool) (es : List PluginEvent) (plugins : List BoxPlugin) :
    Prop where
  nodup : (plugins.map typeId).Nodup
  grown : ∀ T, grown C checks T es = .ok (entry typeId T plugins)

theorem forall₂_inPackets {P : Type} {plugin : Plugin P} {d : InPacket} {ps ps' : List P}
    {refused : Bool} (h : inPackets plugin d ps = .ok (refused, ps')) :
    List.Forall₂ (fun p p' => ∃ v, plugin.inPacket p d = .ok (v, p')) ps ps' := by
  induction ps generalizing refused ps' with
  | nil =>
    cases h
    exact .nil
  | cons p ps ih =>
    obtain ⟨⟨v, p'⟩, hp, h⟩ := bind_eq_ok.mp h
    obtain ⟨⟨_, rest⟩, hrest, ⟨⟩⟩ := bind_eq_ok.mp h
    exact .cons ⟨v, hp⟩ (ih hrest)

theorem forall₂_outPackets {P : Type} {plugin : Plugin P} {packet : Packet}
    {addrs : List SocketAddr} {ps ps' : List P}
    (h : outPackets plugin packet addrs ps = .ok (false, ps')) :
    List.Forall₂ (fun p p' => ∃ v, plugin.outPacket p packet addrs = .ok (v, p')) ps ps' := by
  induction ps generalizing ps' with
  | nil =>
    cases h
    exact .nil
  | cons p ps ih =>
    obtain ⟨⟨v, p'⟩, hp, h⟩ := bind_eq_ok.mp h
    dsimp only at h
    split at h
    · cases h
    · obtain ⟨⟨refused, rest⟩, hrest, ⟨⟩⟩ := bind_eq_ok.mp h
      exact .cons ⟨v, hp⟩ (ih hrest)

section
variable {C : Crates} {checks : Bool} {es : List PluginEvent} {e : PluginEvent}
  {plugins plugins' order : List BoxPlugin}

theorem follows_nil (C : Crates) (checks : Bool) : Follows C checks [] [] :=
  ⟨List.nodup_nil, fun _ => rfl⟩

theorem Follows.perm (h : Follows C checks es plugins) (hp : order.Perm plugins) :
    Follows C checks es order := by
  refine ⟨(hp.map typeId).nodup_iff.mpr h.nodup, fun T => ?_⟩
  rw [entry_perm ((hp.map typeId).nodup_iff.mpr h.nodup) hp]
  exact h.grown T

theorem Follows.all (h : Follows C checks es plugins) (he : ∀ T, e ≠ .config (.addPlugin T))
    (hall : List.Forall₂ (fun p p' => p.handle C checks e = .ok p') plugins plugins') :
    Follows C checks (es ++ [e]) plugins' := by
  have hkey : ∀ p p' : BoxPlugin, p.handle C checks e = .ok p' → p'.typeId = p.typeId :=
    fun _ _ => typeId_handle
  refine ⟨map_key_forall₂ hkey hall ▸ h.nodup, fun T => ?_⟩
  have hrel := entry_forall₂ hkey hall T
  rw [grown_concat, h.grown T, ok_bind]
  generalize entry typeId T plugins = o at hrel
  generalize entry typeId T plugins' = o' at hrel
  cases hrel with
  | none =>
    rw [grow, if_neg (he T)]
    rfl
  | some hp =>
    rw [grow, hp]
    rfl

theorem Follows.inPackets {d : InPacket} {refused : Bool} (h : Follows C checks es plugins)
    (horder : order.Perm plugins)
    (hin : inPackets (plugin C checks) d order = .ok (refused, plugins')) :
    Follows C checks (es ++ [.inPacket d]) plugins' := by
  refine (h.perm horder).all (fun T ht => by cases ht) ((forall₂_inPackets hin).imp ?_)
  rintro p p' ⟨v, hv⟩
  rw [handle, hv]
  rfl

theorem Follows.outPackets {packet : Packet} {addrs : List SocketAddr}
    (h : Follows C checks es plugins) (horder : order.Perm plugins)
    (hout : outPackets (plugin C checks) packet addrs order = .ok (false, plugins')) :
    Follows C checks (es ++ [.outPacket packet addrs]) plugins' := by
  refine (h.perm horder).all (fun T ht => by cases ht) ((forall₂_outPackets hout).imp ?_)
  rintro p p' ⟨v, hv⟩
  rw [handle, hv]
  rfl

theorem Follows.addPlugin (h : Follows C checks es plugins) (T : TypeId) :
    Follows C checks (es ++ [.config (.addPlugin T)]) (addPlugin T plugins) := by
  refine ⟨nodup_register h.nodup _, fun T' => ?_⟩
  rw [grown_concat, h.grown T', ok_bind, BoxPlugin.addPlugin, entry_register, typeId_create]
  cases hentry : entry typeId T' plugins with
  | none =>
    by_cases hT : T = T'
    · subst hT
      simp [grow]
    · simp [grow, hT]
  | some p =>
    have hp := key_of_entry hentry
    show Except.ok (some (if p.typeId = T then create T else p)) = _
    rw [hp]
    by_cases hT : T = T'
    · subst hT
      rw [if_pos rfl, if_pos rfl]
    · rw [if_neg hT, if_neg (Ne.symm hT)]

theorem Follows.config {c : Config} (h : Follows C checks es plugins)
    (hc : configureAll plugins c = .ok plugins') :
    Follows C checks (es ++ [.config c]) plugins' := by
  have hmap : ∀ c : Config, List.Forall₂ (fun p p' => p.handle C checks (.config c) = .ok p')
      plugins (plugins.map fun p => p.configure c) := by
    intro c
    exact List.forall₂_map_right_iff.mpr (List.forall₂_same.mpr fun p _ => rfl)
  cases c with
  | addPlugin T =>
    cases hc
    exact h.addPlugin T
  | setBlockRules blockRules =>
    obtain ⟨_, _, ⟨⟩⟩ := bind_eq_ok.mp hc
    exact h.all (fun T ht => by cases ht) (hmap _)
  | scan | clearTraffic =>
    cases hc
    exact h.all (fun T ht => by cases ht) (hmap _)

end

/-! ### What the three have come to -/

section
variable {C : Crates} {checks : Bool} {es : List PluginEvent} {p : BoxPlugin}

/-- The history of one plugin since it was added is without that. -/
theorem not_adds {T : TypeId} {e : PluginEvent} (he : e ∈ since (PluginEvent.adds T) es) :
    e ≠ .config (.addPlugin T) := by
  have hnone := eq_none_of_mem_since he
  rintro rfl
  simp [PluginEvent.adds] at hnone

/-- The LDN plugin has played the datagrams and scans. -/
theorem ldnMitm_of_grown (h : grown C checks .ldnMitm es = .ok (some p)) : ∃ l, p = .ldnMitm l ∧
    LdnMitmPlugin.new.play C ((since (PluginEvent.adds .ldnMitm) es).filterMap
      PluginEvent.ldnMitm?) = .ok l := by
  have hrun := of_grown h
  rw [create, foldlM_embed (g := LdnMitmPlugin.handle C) ldnMitm PluginEvent.ldnMitm? .new] at hrun
  · obtain ⟨l, hl, ⟨⟩⟩ := bind_eq_ok.mp hrun
    exact ⟨l, rfl, hl⟩
  intro l e he
  cases e with
  | inPacket d =>
    simp only [handle, plugin, LdnMitmPlugin.plugin, PluginEvent.ldnMitm?, Option.elim_some,
      LdnMitmPlugin.handle]
    cases l.inPacket C d <;> rfl
  | outPacket packet addrs => rfl
  | config c =>
    cases c with
    | addPlugin T =>
      have hT : TypeId.ldnMitm ≠ T := by
        rintro rfl
        exact not_adds he rfl
      exact congrArg Except.ok (if_neg hT)
    | scan | setBlockRules | clearTraffic => rfl

/-- The traffic plugin has counted the datagrams and packets. -/
theorem traffic_of_grown (h : grown C checks .traffic es = .ok (some p)) :
    ∃ t snapshots, p = .traffic t ∧ TrafficPlugin.Inner.new.run checks
      ((since (PluginEvent.adds .traffic) es).filterMap PluginEvent.op?) = .ok (snapshots, t) := by
  have hrun := of_grown h
  rw [create, foldlM_embed (g := fun r op => do
    let x ← TrafficPlugin.Inner.apply checks r.2 op
    pure (r.1 ++ x.1, x.2)) (fun r => traffic r.2) PluginEvent.op?
    (([], .new) : List TrafficInfo × TrafficPlugin.Inner)] at hrun
  · obtain ⟨⟨snapshots, t⟩, ht, ⟨⟩⟩ := bind_eq_ok.mp hrun
    exact ⟨t, snapshots, rfl, ht⟩
  rintro ⟨snapshots, t⟩ e he
  cases e with
  | inPacket d =>
    simp only [handle, plugin, TrafficPlugin.plugin, PluginEvent.op?, Option.elim_some,
      TrafficPlugin.Inner.apply]
    cases t.inPacket checks d <;> rfl
  | outPacket packet addrs =>
    simp only [handle, plugin, TrafficPlugin.plugin, PluginEvent.op?, Option.elim_some,
      TrafficPlugin.Inner.apply]
    cases t.outPacket checks packet addrs <;> rfl
  | config c =>
    cases c with
    | addPlugin T =>
      have hT : TypeId.traffic ≠ T := by
        rintro rfl
        exact not_adds he rfl
      exact congrArg Except.ok (if_neg hT)
    | scan | setBlockRules | clearTraffic => rfl

theorem handle_blocker {b : BlockerPlugin} {e : PluginEvent}
    (he : e ≠ .config (.addPlugin .blocker)) (h : (blocker b).handle C checks e = .ok p) :
    ∃ b', p = .blocker b' ∧ some b'.blockRules = e.blockRules?.or (some b.blockRules) := by
  cases e with
  | inPacket d =>
    obtain ⟨_, hin, ⟨⟩⟩ := bind_eq_ok.mp h
    obtain ⟨⟨v, b'⟩, hb, ⟨⟩⟩ := bind_eq_ok.mp hin
    replace hb : b.inPacket C d = .ok (v, b') := hb
    rw [BlockerPlugin.inPacket_eq] at hb
    obtain ⟨_, _, ⟨⟩⟩ := bind_eq_ok.mp hb
    exact ⟨_, rfl, rfl⟩
  | outPacket packet addrs =>
    cases h
    exact ⟨b, rfl, rfl⟩
  | config c =>
    cases h
    cases c with
    | addPlugin T =>
      have hT : TypeId.blocker ≠ T := by
        rintro rfl
        exact he rfl
      exact ⟨b, if_neg hT, rfl⟩
    | setBlockRules blockRules => exact ⟨b.setBlockRules blockRules, rfl, rfl⟩
    | scan | clearTraffic => exact ⟨b, rfl, rfl⟩

/-- The blocker has the rules that were set last. -/
theorem blocker_of_grown (h : grown C checks .blocker es = .ok (some p)) :
    ∃ b, p = .blocker b ∧ b.blockRules =
      (latest PluginEvent.blockRules? (since (PluginEvent.adds .blocker) es)).getD [] := by
  have hrun := of_grown h
  have hpost : ∀ e ∈ since (PluginEvent.adds .blocker) es, e ≠ .config (.addPlugin .blocker) :=
    fun _ => not_adds
  generalize since (PluginEvent.adds .blocker) es = post at hrun hpost
  clear h
  induction post using List.reverseRecOn generalizing p with
  | nil =>
    cases hrun
    exact ⟨.new, rfl, rfl⟩
  | append_singleton post e ih =>
    rw [List.foldlM_append] at hrun
    obtain ⟨p₀, hp₀, hrun⟩ := bind_eq_ok.mp hrun
    rw [List.foldlM_cons] at hrun
    obtain ⟨_, hp, ⟨⟩⟩ := bind_eq_ok.mp hrun
    obtain ⟨b, rfl, hb⟩ := ih hp₀ fun e he => hpost e (List.mem_append_left _ he)
    obtain ⟨b', rfl, hb'⟩ := handle_blocker (hpost e (by simp)) hp
    refine ⟨b', rfl, ?_⟩
    rw [latest_concat, ← Option.some_inj, hb', hb]
    cases e.blockRules? <;> rfl

end

end BoxPlugin

end SlpServer
