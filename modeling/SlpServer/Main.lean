import SlpServer.Graphql.Model
import SlpServer.Slp.Intake

/-!
# The program

`main.rs`: the server is started without plugins and receives at once; then
`main` adds the plugins, sets the rules of the blocker, and serves queries.  All
the while the tasks of the server and of the plugins run.

Every step logs what it does with the plugins: a datagram that the receive loop
puts before them, a packet that is sent on, a step of `main` or of a plugin's own
task.  `Hosted` says that the plugins are what the log has made of them.  From
this follows what the queries answer, as long as no loop of the server has ended.
-/

namespace SlpServer

open Rust BoxPlugin Registry

/-- The options, but for the port. -/
structure Opt where
  adminToken : Option String
  ignoreIdle : Bool
  blockRules : List Rule

/-- `register_plugins`, with the feature `ldn_mitm`. -/
def registerPlugins : List Config :=
  [.addPlugin .ldnMitm, .addPlugin .traffic, .addPlugin .blocker]

/-- What `main` does to the plugins before it serves. -/
def Opt.startup (opt : Opt) : List Config :=
  registerPlugins ++ if opt.blockRules.isEmpty then [] else [.setBlockRules opt.blockRules]

structure App extends Ctx where
  /-- What `main` has still to do. -/
  startup : List Config
  /-- What the plugins have been called for, in order. -/
  log : List PluginEvent

namespace Server

variable {P : Type}

/-- The datagrams that the plugins have had. -/
def heard (s : Server P) : List InPacket :=
  match s.recv with
  | .filtering _ => s.received.dropLast
  | _ => s.received

/-- What `send_lan` was called for. -/
def sentOn (s : Server P) : List (Packet × List SocketAddr) :=
  s.lanCalls.map fun c => (c.packet, c.addrs)

/-- What the plugins have been called for between `s` and `s'`. -/
def callsBetween (s s' : Server P) : List PluginEvent :=
  (s'.heard.drop s.heard.length).map .inPacket ++
    (s'.sentOn.drop s.sentOn.length).map fun c => .outPacket c.1 c.2

end Server

namespace App

def new (opt : Opt) : App := ⟨⟨.new opt.ignoreIdle [], opt.adminToken⟩, opt.startup, []⟩

inductive Label
  | server (l : Server.Label)
  | startup
  /-- A task of a plugin. -/
  | own (c : Config)

/-- What a step does to the table but for packets. -/
def Label.config (a : App) : Label → Option Config
  | server _ => none
  | startup => a.startup.head?
  | own c => some c

/-- The program with the plugins that `c` has made. -/
def configured (a : App) (c : Config) (plugins : List BoxPlugin) : App :=
  { a with udpServer := { a.udpServer with plugins }, log := a.log ++ [.config c] }

inductive Step (C : Crates) (checks : Bool) : App → Label → App → Prop
  | server {a : App} {l : Server.Label} {s : Server BoxPlugin} (hl : l ≠ .configure)
      (h : Server.Step (plugin C checks) a.udpServer l s) :
    Step C checks a (.server l)
      { a with udpServer := s, log := a.log ++ a.udpServer.callsBetween s }
  | startup {a : App} {c : Config} {rest : List Config} {plugins : List BoxPlugin}
      (h : a.startup = c :: rest) (hc : configureAll a.udpServer.plugins c = .ok plugins) :
    Step C checks a .startup { a.configured c plugins with startup := rest }
  | own {a : App} {c : Config} {plugins : List BoxPlugin} (hown : c = .scan ∨ c = .clearTraffic)
      (hc : configureAll a.udpServer.plugins c = .ok plugins) :
    Step C checks a (.own c) (a.configured c plugins)

def lts (C : Crates) (checks : Bool) (opt : Opt) : Lts App Label where
  init a := a = new opt
  step := Step C checks

variable {C : Crates} {checks : Bool} {opt : Opt} {a a' : App} {l : Label}

/-- Its server is one of those. -/
theorem server_of_reachable (h : (lts C checks opt).Reachable a) :
    (Server.lts (plugin C checks)).Reachable a.udpServer := by
  induction h with
  | init h =>
    cases h
    exact .init ⟨opt.ignoreIdle, [], rfl⟩
  | step _ hs ih =>
    cases hs with
    | server _ hs => exact ih.step hs
    | startup _ _ | own _ _ => exact ih.step (.configure _)

/-! ### What the plugins have been called for -/

end App

namespace Server

variable {P : Type}

/-- No loop has ended. -/
def Up (s : Server P) : Prop := s.recv ≠ .down ∧ s.events.closed = false

theorem received_of_filtering {plugin : Plugin P} {s : Server P} (h : (lts plugin).Reachable s)
    {d : Stamped} (hd : s.recv = .filtering d) :
    s.received = s.received.dropLast ++ [d.packet] := by
  obtain ⟨n, hn⟩ := intake_of_reachable h
  have hdone := hn.done
  simp only [DoneWith, hd] at hdone
  obtain ⟨rfl, hlen⟩ := hdone
  have hlast : s.received.getLast? = some d.packet := by
    rw [List.getLast?_eq_getElem?, hlen, Nat.add_sub_cancel]
    exact ((flow_of_reachable h).recv d (by rw [hd]; rfl)).1
  exact (List.dropLast_append_getLast? _ hlast).symm

/-- What the loops make of the plugins in one step. -/
inductive Calls (C : Crates) (checks : Bool) (s s' : Server BoxPlugin) : Prop
  | none (hplugins : s'.plugins = s.plugins) (hheard : s'.heard = s.heard)
      (hsent : s'.sentOn = s.sentOn)
  | inPacket {d : InPacket} {order : List BoxPlugin} {refused : Bool}
      (horder : order.Perm s.plugins)
      (hin : inPackets (plugin C checks) d order = .ok (refused, s'.plugins))
      (hheard : s'.heard = s.heard ++ [d]) (hsent : s'.sentOn = s.sentOn)
  | outPacket {packet : Packet} {addrs : List SocketAddr} {order : List BoxPlugin}
      (horder : order.Perm s.plugins)
      (hout : outPackets (plugin C checks) packet addrs order = .ok (false, s'.plugins))
      (hheard : s'.heard = s.heard) (hsent : s'.sentOn = s.sentOn ++ [(packet, addrs)])

theorem callsBetween_none {s s' : Server P} (hheard : s'.heard = s.heard)
    (hsent : s'.sentOn = s.sentOn) : s.callsBetween s' = [] := by
  simp [callsBetween, hheard, hsent]

theorem callsBetween_inPacket {s s' : Server P} {d : InPacket} (hheard : s'.heard = s.heard ++ [d])
    (hsent : s'.sentOn = s.sentOn) : s.callsBetween s' = [.inPacket d] := by
  simp [callsBetween, hheard, hsent]

theorem callsBetween_outPacket {s s' : Server P} {packet : Packet} {addrs : List SocketAddr}
    (hheard : s'.heard = s.heard) (hsent : s'.sentOn = s.sentOn ++ [(packet, addrs)]) :
    s.callsBetween s' = [.outPacket packet addrs] := by
  simp [callsBetween, hheard, hsent]

/-- One step calls the plugins for one packet, or for none. -/
theorem calls_of_step {C : Crates} {checks : Bool} {s s' : Server BoxPlugin} {l : Label}
    (hreach : (lts (plugin C checks)).Reachable s) (hl : l ≠ .configure)
    (h : Step (plugin C checks) s l s') (hup : s'.Up) : Calls C checks s s' := by
  cases h with
  | configure plugins => exact absurd rfl hl
  | receive packet hidle =>
    refine .none rfl ?_ rfl
    show (s.received ++ [packet]).dropLast = s.heard
    rw [List.dropLast_concat, heard, hidle]
  | recvFails => exact absurd rfl hup.1
  | filterPanics => exact absurd rfl hup.1
  | crash => exact absurd hup.2 Bool.noConfusion
  | @filter d order plugins refused hd horder hin =>
    refine .inPacket horder hin ?_ rfl
    show s.received = s.heard ++ [d.packet]
    rw [heard, hd]
    exact received_of_filtering hreach hd
  | discard hd | pong hd | dispatch hd =>
    refine .none rfl ?_ rfl
    show s.received = s.heard
    rw [heard, hd]
  | @sendLan jobs jobs' e src out addrs order plugins hjobs he horder hout =>
    refine .outPacket horder hout rfl ?_
    show (s.lanCalls ++ [_]).map _ = _
    rw [List.map_append]
    rfl
  | drop hjobs he horder hout => cases (BoxPlugin.outPackets_eq_ok hout).1
  | tick | task | taskSends | take | close | route | sendTo | finish => exact .none rfl rfl rfl

theorem Up.of_step {plugin : Plugin P} {s s' : Server P} {l : Label}
    (h : Step plugin s l s') (hup : s'.Up) : s.Up := by
  refine ⟨fun hdown => ?_, open_of_step h hup.2⟩
  cases h with
  | receive packet hidle =>
    rw [hidle] at hdown
    cases hdown
  | recvFails => exact absurd rfl hup.1
  | filterPanics => exact absurd rfl hup.1
  | filter hd | discard hd | pong hd | dispatch hd =>
    rw [hd] at hdown
    cases hdown
  | tick | configure | task | taskSends | take | close | route | sendLan | drop | crash | sendTo
  | finish => exact absurd hdown hup.1

end Server

/-- What `main` has done. -/
def PluginEvent.startup? : PluginEvent → Option Config
  | .config (.addPlugin T) => some (.addPlugin T)
  | .config (.setBlockRules blockRules) => some (.setBlockRules blockRules)
  | _ => none

def PluginEvent.config? : PluginEvent → Option Config
  | .config c => some c
  | _ => none

def PluginEvent.inPacket? : PluginEvent → Option InPacket
  | .inPacket packet => some packet
  | _ => none

def PluginEvent.outPacket? : PluginEvent → Option (Packet × List SocketAddr)
  | .outPacket packet addrs => some (packet, addrs)
  | _ => none

namespace App

/-- The plugins are what the log has made of them, and the log is of what has
happened. -/
structure Hosted (C : Crates) (checks : Bool) (opt : Opt) (a : App) : Prop where
  follows : Follows C checks a.log a.udpServer.plugins
  heard : a.log.filterMap PluginEvent.inPacket? = a.udpServer.heard
  sentOn : a.log.filterMap PluginEvent.outPacket? = a.udpServer.sentOn
  startup : a.log.filterMap PluginEvent.startup? ++ a.startup = opt.startup
  token : a.adminToken = opt.adminToken

variable {C : Crates} {checks : Bool} {opt : Opt} {a a' : App} {l : Label}

theorem filterMap_concat {α β : Type} (f : α → Option β) (xs : List α) (x : α) :
    (xs ++ [x]).filterMap f = xs.filterMap f ++ (f x).toList := by
  rw [List.filterMap_append, List.filterMap_cons, List.filterMap_nil]
  cases f x <;> rfl

theorem startup?_of_mem {c : Config} (h : c ∈ opt.startup) :
    PluginEvent.startup? (.config c) = some c := by
  cases c with
  | addPlugin | setBlockRules => rfl
  | scan | clearTraffic =>
    unfold Opt.startup at h
    split at h <;> simp [registerPlugins] at h

theorem Hosted.add (h : Hosted C checks opt a) {e : PluginEvent} (hlog : a'.log = a.log ++ [e])
    (hfollows : Follows C checks (a.log ++ [e]) a'.udpServer.plugins)
    (hheard : a'.udpServer.heard = a.udpServer.heard ++ e.inPacket?.toList)
    (hsentOn : a'.udpServer.sentOn = a.udpServer.sentOn ++ e.outPacket?.toList)
    (hstartup : a.startup = e.startup?.toList ++ a'.startup)
    (htoken : a'.adminToken = a.adminToken) : Hosted C checks opt a' where
  follows := hlog ▸ hfollows
  heard := by rw [hlog, filterMap_concat, h.heard, hheard]
  sentOn := by rw [hlog, filterMap_concat, h.sentOn, hsentOn]
  startup := by rw [hlog, filterMap_concat, List.append_assoc, ← hstartup, h.startup]
  token := htoken.trans h.token

/-- **A step** keeps the plugins what the log says, and logs what it does to the
table. -/
theorem Hosted.step (hreach : (lts C checks opt).Reachable a) (h : Hosted C checks opt a)
    (hs : Step C checks a l a') (hup : a'.udpServer.Up) : Hosted C checks opt a' ∧
      ∃ e : Option PluginEvent, a'.log = a.log ++ e.toList ∧
        e.bind PluginEvent.config? = l.config a := by
  cases hs with
  | @server l s hl hs =>
    cases Server.calls_of_step (server_of_reachable hreach) hl hs hup with
    | none hplugins hheard hsent =>
      have hlog := Server.callsBetween_none hheard hsent
      have hsame : a.log ++ a.udpServer.callsBetween s = a.log := by rw [hlog, List.append_nil]
      refine ⟨⟨?_, ?_, ?_, ?_, h.token⟩, none, congrArg _ hlog, rfl⟩
      · show Follows C checks (a.log ++ _) s.plugins
        rw [hsame, hplugins]
        exact h.follows
      · exact (congrArg _ hsame).trans (h.heard.trans hheard.symm)
      · exact (congrArg _ hsame).trans (h.sentOn.trans hsent.symm)
      · show (a.log ++ _).filterMap _ ++ a.startup = opt.startup
        rw [hsame]
        exact h.startup
    | inPacket horder hin hheard hsent =>
      have hlog := congrArg (a.log ++ ·) (Server.callsBetween_inPacket hheard hsent)
      have hnone := hsent.trans (List.append_nil _).symm
      have hfollows := h.follows.inPackets horder hin
      exact ⟨h.add hlog hfollows hheard hnone rfl rfl, some (.inPacket _), hlog, rfl⟩
    | outPacket horder hout hheard hsent =>
      have hlog := congrArg (a.log ++ ·) (Server.callsBetween_outPacket hheard hsent)
      have hnone := hheard.trans (List.append_nil _).symm
      have hfollows := h.follows.outPackets horder hout
      exact ⟨h.add hlog hfollows hnone hsent rfl rfl, some (.outPacket _ _), hlog, rfl⟩
  | @startup c rest plugins hrest hc =>
    have hmem : c ∈ opt.startup := by
      rw [← h.startup, hrest]
      exact List.mem_append_right _ List.mem_cons_self
    refine ⟨h.add rfl (h.follows.config hc) (List.append_nil _).symm (List.append_nil _).symm
      ?_ rfl, some (.config c), rfl, ?_⟩
    · rw [hrest, startup?_of_mem hmem]
      rfl
    · rw [Label.config, hrest]
      rfl
  | @own c plugins hown hc =>
    refine ⟨h.add rfl (h.follows.config hc) (List.append_nil _).symm (List.append_nil _).symm
      ?_ rfl, some (.config c), rfl, rfl⟩
    obtain rfl | rfl := hown <;> rfl

theorem up_of_step (h : Step C checks a l a') (hup : a'.udpServer.Up) : a.udpServer.Up := by
  cases h with
  | server _ h => exact .of_step h hup
  | startup _ _ | own _ _ => exact hup

theorem hosted_new (C : Crates) (checks : Bool) (opt : Opt) : Hosted C checks opt (new opt) :=
  ⟨follows_nil C checks, rfl, rfl, rfl, rfl⟩

theorem hosted_of_reachable (h : (lts C checks opt).Reachable a) (hup : a.udpServer.Up) :
    Hosted C checks opt a := by
  induction h with
  | init h =>
    cases h
    exact hosted_new C checks opt
  | step h hs ih => exact ((ih (up_of_step hs hup)).step h hs hup).1

/-! ### While it serves -/

section
variable {T : TypeId}

theorem Hosted.exists_plugin (h : Hosted C checks opt a)
    (hadded : .addPlugin T ∈ a.log.filterMap PluginEvent.startup?) :
    ∃ p, getPlugin T a.udpServer.plugins = .ok p ∧ grown C checks T a.log = .ok (some p) := by
  have hmem : PluginEvent.config (.addPlugin T) ∈ a.log := by
    obtain ⟨e, he, hadds⟩ := List.mem_filterMap.mp hadded
    unfold PluginEvent.startup? at hadds
    split at hadds <;> cases hadds
    exact he
  have hgrown := h.follows.grown T
  obtain ⟨p, hp⟩ := exists_of_grown hgrown hmem
  rw [hp] at hgrown
  refine ⟨p, ?_, hgrown⟩
  rw [getPlugin, hp]
  rfl

theorem addPlugin_mem_startup (opt : Opt) (T : TypeId) : .addPlugin T ∈ opt.startup := by
  unfold Opt.startup
  cases T <;> simp [registerPlugins]

/-- The blocker is added before its rules are set. -/
theorem blocker_added {done rest : List Config} {blockRules : List Rule}
    (h : done ++ .setBlockRules blockRules :: rest = opt.startup) : .addPlugin .blocker ∈ done := by
  rcases done with _ | ⟨x, _ | ⟨y, _ | ⟨z, done⟩⟩⟩
  · simp [Opt.startup, registerPlugins] at h
  · simp [Opt.startup, registerPlugins] at h
  · simp [Opt.startup, registerPlugins] at h
  · simp only [Opt.startup, registerPlugins, List.cons_append, List.cons.injEq] at h
    simp [h.2.2.1]

theorem Hosted.serving (h : Hosted C checks opt a) (hserving : a.startup = []) :
    a.log.filterMap PluginEvent.startup? = opt.startup := by
  have hstartup := h.startup
  rwa [hserving, List.append_nil] at hstartup

/-- The blocker of a program that serves has the rules of its options. -/
theorem rules_of_startup {es : List PluginEvent}
    (hes : es.filterMap PluginEvent.startup? = opt.startup) :
    (latest PluginEvent.blockRules? (since (PluginEvent.adds .blocker) es)).getD [] =
      opt.blockRules := by
  have hadds : ∀ e, PluginEvent.adds .blocker e =
      e.startup?.bind fun c => PluginEvent.adds .blocker (.config c) := by
    intro e
    cases e with
    | config c => cases c <;> rfl
    | inPacket | outPacket => rfl
  have hrules : ∀ e, PluginEvent.blockRules? e =
      e.startup?.bind fun c => PluginEvent.blockRules? (.config c) := by
    intro e
    cases e with
    | config c => cases c <;> rfl
    | inPacket | outPacket => rfl
  rw [latest_filterMap hrules, since_filterMap hadds, hes, Opt.startup, registerPlugins]
  cases hnil : opt.blockRules with
  | nil => rfl
  | cons r rules => rfl

end

/-- One rule, and a token. -/
def sampleOpt : Opt := ⟨some "secret", false, [⟨.tcp, 5000⟩]⟩

/-- `main` has added the plugins and set the rules, and they have had a datagram. -/
def sampleLog : List PluginEvent :=
  [.config (.addPlugin .ldnMitm), .config (.addPlugin .traffic), .config (.addPlugin .blocker),
    .config (.setBlockRules [⟨.tcp, 5000⟩]), .inPacket ⟨[0], sampleClient⟩]

theorem exists_served : ∃ a, (lts .byLayout true sampleOpt).Reachable a ∧ a.udpServer.Up ∧
    a.startup = [] ∧ a.log = sampleLog ∧ a.udpServer.heard = [⟨[0], sampleClient⟩] ∧
    getPlugin .traffic a.udpServer.plugins = .ok (.traffic (⟨0, 1, 0, 1⟩, .new)) := by
  have hnew : (lts .byLayout true sampleOpt).Reachable (new sampleOpt) := .init rfl
  have hldn := hnew.step (.startup rfl rfl)
  have htraffic := hldn.step (.startup rfl rfl)
  have hblocker := htraffic.step (.startup rfl rfl)
  have hrules := hblocker.step (.startup rfl rfl)
  have hreceive := hrules.step (.server Server.Label.noConfusion (.receive ⟨[0], sampleClient⟩ rfl))
  have hfilter := hreceive.step (.server Server.Label.noConfusion (.filter rfl (.refl _) rfl))
  exact ⟨_, hfilter, ⟨RecvPhase.noConfusion, rfl⟩, rfl, rfl, rfl, rfl⟩

/-- **The plugins are what their calls have made of them.**  The log has the
datagrams that the receive loop has put before the plugins and the packets that
were sent on, each in its order, and what `main` has done, and the plugin of each
type is what its own methods make of the part of the log since it was added. -/
theorem plugins_follow (h : (lts C checks opt).Reachable a) (hup : a.udpServer.Up) :
    a.log.filterMap PluginEvent.inPacket? = a.udpServer.heard ∧
      a.log.filterMap PluginEvent.outPacket? = a.udpServer.sentOn ∧
      a.log.filterMap PluginEvent.startup? ++ a.startup = opt.startup ∧
      ∀ T p, getPlugin T a.udpServer.plugins = .ok p ↔ .config (.addPlugin T) ∈ a.log ∧
        (since (PluginEvent.adds T) a.log).foldlM (handle C checks) (create T) = .ok p := by
  have hosted := hosted_of_reachable h hup
  refine ⟨hosted.heard, hosted.sentOn, hosted.startup, fun T p => ?_⟩
  have hgrown := hosted.follows.grown T
  unfold getPlugin
  constructor
  · intro hp
    cases hentry : entry typeId T a.udpServer.plugins with
    | none =>
      rw [hentry] at hp
      cases hp
    | some p' =>
      rw [hentry] at hp hgrown
      cases hp
      exact ⟨mem_of_grown hgrown, of_grown hgrown⟩
  · rintro ⟨hmem, hfold⟩
    obtain ⟨p', hp'⟩ := exists_of_grown hgrown hmem
    rw [hp'] at hgrown ⊢
    rw [of_grown hgrown] at hfold
    cases hfold
    rfl

theorem plugins_follow_served : ∃ a : App, a.log = sampleLog ∧
    a.log.filterMap PluginEvent.inPacket? = [⟨[0], sampleClient⟩] ∧
    ∃ p, getPlugin .traffic a.udpServer.plugins = .ok p ∧
      (since (PluginEvent.adds .traffic) sampleLog).foldlM (handle .byLayout true)
        (create .traffic) = .ok p := by
  obtain ⟨a, h, hup, _, hlog, hheard, htraffic⟩ := exists_served
  obtain ⟨hin, _, _, hplugins⟩ := plugins_follow h hup
  exact ⟨a, hlog, hin.trans hheard, _, htraffic, hlog ▸ ((hplugins .traffic _).mp htraffic).2⟩

/-- **`main` does not panic, and the blocker has its rules.**  What `main` has
still to do can be done, and once it serves, the table has the three plugins and
the blocker the rules of the options. -/
theorem serves (h : (lts C checks opt).Reachable a) (hup : a.udpServer.Up) :
    (∀ c rest, a.startup = c :: rest → Returns (configureAll a.udpServer.plugins c)) ∧
      (a.startup = [] → (∀ T, Returns (getPlugin T a.udpServer.plugins)) ∧
        ∃ b, getPlugin .blocker a.udpServer.plugins = .ok (.blocker b) ∧
          b.blockRules = opt.blockRules) := by
  have hosted := hosted_of_reachable h hup
  constructor
  · intro c rest hrest
    cases c with
    | addPlugin | scan | clearTraffic => exact returns_ok _
    | setBlockRules blockRules =>
      obtain ⟨p, hp, _⟩ := hosted.exists_plugin (blocker_added (hrest ▸ hosted.startup))
      rw [configureAll, hp]
      exact returns_ok _
  · intro hserving
    have hall := hosted.serving hserving
    have hplugin : ∀ T, ∃ p, getPlugin T a.udpServer.plugins = .ok p ∧
        grown C checks T a.log = .ok (some p) :=
      fun T => hosted.exists_plugin (hall ▸ addPlugin_mem_startup opt T)
    refine ⟨fun T => ?_, ?_⟩
    · obtain ⟨p, hp, _⟩ := hplugin T
      exact ⟨p, hp⟩
    · obtain ⟨p, hp, hgrown⟩ := hplugin .blocker
      obtain ⟨b, rfl, hrules⟩ := blocker_of_grown hgrown
      exact ⟨b, hp, hrules.trans (rules_of_startup hall)⟩

theorem serves_served : ∃ a : App, a.startup = [] ∧
    ∃ b, getPlugin .blocker a.udpServer.plugins = .ok (.blocker b) ∧
      b.blockRules = [⟨.tcp, 5000⟩] := by
  obtain ⟨a, h, hup, hserving, _⟩ := exists_served
  exact ⟨a, hserving, ((serves h hup).2 hserving).2⟩

/-- What the LDN plugin has been called for since it was added. -/
def ldnMitmEvents (es : List PluginEvent) : List LdnMitmPlugin.Event :=
  (since (PluginEvent.adds .ldnMitm) es).filterMap PluginEvent.ldnMitm?

/-- What the traffic plugin has been called for since it was added. -/
def trafficOps (es : List PluginEvent) : List TrafficPlugin.Op :=
  (since (PluginEvent.adds .traffic) es).filterMap PluginEvent.op?

theorem trafficOps_concat {e : PluginEvent} (es : List PluginEvent)
    (he : e ≠ .config (.addPlugin .traffic)) :
    trafficOps (es ++ [e]) = trafficOps es ++ e.op?.toList := by
  rw [trafficOps, since_concat_none es (if_neg he), filterMap_concat]
  rfl

theorem trafficOps_added (es : List PluginEvent) :
    trafficOps (es ++ [.config (.addPlugin .traffic)]) = [] := by
  rw [trafficOps, since_concat_some es (if_pos rfl)]
  rfl

/-- The traffic plugin in the table has counted these. -/
theorem traffic_eq_counted {es : List PluginEvent} {p : BoxPlugin}
    (h : grown C checks .traffic es = .ok (some p)) :
    p = .traffic (TrafficPlugin.counted (TrafficPlugin.windows (trafficOps es))).2 := by
  obtain ⟨t, snapshots, rfl, hrun⟩ := traffic_of_grown h
  obtain ⟨-, rfl⟩ := Prod.mk.inj (TrafficPlugin.run_eq_counted hrun)
  rfl

/-- **What the room query answers**: the rooms that the hosts have told of in the
datagrams since the plugin was added, each in its last answer since the last
scan. -/
theorem room_query (h : (lts C checks opt).Reachable a) (hup : a.udpServer.Up)
    (hserving : a.startup = []) :
    a.log.filterMap PluginEvent.inPacket? = a.udpServer.heard ∧
      ∃ out s, ∃ rooms : AList fun _ : Ipv4Addr => LdnMitm.RoomInfo,
        Keyed.run LdnMitmPlugin.hear FragParser.new (ldnMitmEvents a.log) = .ok (out, s) ∧
        Query.room a.toCtx = .ok (.ok (rooms.entries.map fun e => e.2)) ∧
        ∀ ip, rooms.lookup ip =
          (latest (LdnMitmPlugin.Heard.tells C ip) (out.map Prod.snd)).join := by
  have hosted := hosted_of_reachable h hup
  have hall := hosted.serving hserving
  obtain ⟨p, hp, hgrown⟩ := hosted.exists_plugin (hall ▸ addPlugin_mem_startup opt .ldnMitm)
  obtain ⟨l, rfl, hplay⟩ := ldnMitm_of_grown hgrown
  obtain ⟨out, hrun, hrooms⟩ := LdnMitmPlugin.of_play hplay
  refine ⟨hosted.heard, out, _, l.roomInfo, hrun, ?_, hrooms⟩
  rw [Query.room, hp]
  rfl

theorem room_query_served : ∃ a : App, a.log = sampleLog ∧
    ∃ out s, ∃ rooms : AList fun _ : Ipv4Addr => LdnMitm.RoomInfo,
      Keyed.run LdnMitmPlugin.hear FragParser.new [.datagram ⟨[0], sampleClient⟩] =
        .ok (out, s) ∧
      Query.room a.toCtx = .ok (.ok (rooms.entries.map fun e => e.2)) := by
  obtain ⟨a, h, hup, hserving, hlog, _⟩ := exists_served
  obtain ⟨_, out, s, rooms, hrun, hquery, _⟩ := room_query h hup hserving
  rw [hlog] at hrun
  exact ⟨a, hlog, out, s, rooms, hrun, hquery⟩

/-- **What the traffic query answers**: to the token of the options, and to no
other, the totals of the datagrams and of the packets sent on since the plugin
was last cleared, modulo 2^32.  A subscription starts with the same. -/
theorem traffic_query (h : (lts C checks opt).Reachable a) (hup : a.udpServer.Up)
    (hserving : a.startup = []) (token : String) :
    a.log.filterMap PluginEvent.inPacket? = a.udpServer.heard ∧
      a.log.filterMap PluginEvent.outPacket? = a.udpServer.sentOn ∧
      Query.trafficInfo a.toCtx token = .ok (if some token = opt.adminToken then
          .ok (TrafficPlugin.info (TrafficPlugin.windows (trafficOps a.log)).2)
        else .error "Permission denied") ∧
      ∀ sender, Subscription.trafficInfo a.toCtx sender token =
        .ok (if some token = opt.adminToken then
          .ok (infoStream sender
            (TrafficPlugin.info (TrafficPlugin.windows (trafficOps a.log)).2))
        else .error "Permission denied") := by
  have hosted := hosted_of_reachable h hup
  have hall := hosted.serving hserving
  obtain ⟨p, hp, hgrown⟩ := hosted.exists_plugin (hall ▸ addPlugin_mem_startup opt .traffic)
  rw [traffic_eq_counted hgrown] at hp
  refine ⟨hosted.heard, hosted.sentOn, ?_, fun sender => ?_⟩
  · rw [Query.trafficInfo, hp, hosted.token]
    split <;> rfl
  · rw [Subscription.trafficInfo, hp, hosted.token]
    split <;> rfl

theorem traffic_query_served : ∃ a : App, a.log = sampleLog ∧
    Query.trafficInfo a.toCtx "secret" = .ok (.ok ⟨0, 1, 0, 1⟩) ∧
    Query.trafficInfo a.toCtx "guess" = .ok (.error "Permission denied") := by
  obtain ⟨a, h, hup, hserving, hlog, _⟩ := exists_served
  have hinfo : TrafficPlugin.info (TrafficPlugin.windows (trafficOps a.log)).2 =
      ⟨0, 1, 0, 1⟩ := by
    rw [hlog]
    rfl
  have hsecret := (traffic_query h hup hserving "secret").2.2.1
  rw [hinfo] at hsecret
  exact ⟨a, hlog, hsecret, (traffic_query h hup hserving "guess").2.2.1⟩

end App

end SlpServer
