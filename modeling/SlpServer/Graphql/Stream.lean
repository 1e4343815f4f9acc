import SlpServer.Main
import SlpServer.Slp.Gapless

/-!
# Streams of traffic

`Subscription::traffic_info` on the running program.  The sampler of the traffic
plugin clears its counters with every tick, so its samples are the totals of the
windows between the ticks, of the datagrams the plugins have had and of the
packets that were sent on (`sampled_of_reachable`).  A subscriber receives these
totals, skipping none (`traffic_stream`).
-/

namespace SlpServer

open Rust BoxPlugin TrafficPlugin

/-- The program, with the sampler of its traffic plugin and the subscribers. -/
structure Watched extends App where
  traffic : Feed TrafficInfo

/-- It takes a receiver. -/
def Feed.Label.Opens {α : Type} : Feed.Label α → Prop
  | .join | .subscribe _ => True
  | _ => False

namespace Watched

def new (opt : Opt) : Watched := ⟨.new opt, .start⟩

inductive Label
  | app (l : App.Label)
  | sample
  | feed (l : Feed.Label TrafficInfo)

/-- The sampler comes with the plugin.  A subscriber may have its snapshot later
than its receiver, so the snapshot is any. -/
inductive Step (C : Crates) (checks : Bool) : Watched → Label → Watched → Prop
  | app {w : Watched} {l : App.Label} {a : App} (hl : l ≠ .own .clearTraffic)
      (h : App.Step C checks w.toApp l a) :
    Step C checks w (.app l)
      ⟨a, if l.config w.toApp = some (.addPlugin .traffic) then .start else w.traffic⟩
  | sample {w : Watched} {a : App} {r : Inner}
      (hr : getPlugin .traffic w.udpServer.plugins = .ok (.traffic r))
      (h : App.Step C checks w.toApp (.own .clearTraffic) a) :
    Step C checks w .sample ⟨a, { w.traffic with
      sampler := w.traffic.sampler.tick r.clearTraffic.1
      samples := w.traffic.samples ++ [r.clearTraffic.1] }⟩
  | feed {w : Watched} {l : Feed.Label TrafficInfo} {f : Feed TrafficInfo} (hl : ∀ x, l ≠ .tick x)
      (hopens : l.Opens → ∃ token r,
        Subscription.trafficInfo w.toCtx w.traffic.sampler.chan token = .ok (.ok r))
      (h : Feed.Step w.traffic l f) :
    Step C checks w (.feed l) { w with traffic := f }

def lts (C : Crates) (checks : Bool) (opt : Opt) : Lts Watched Label where
  init w := w = new opt
  step := Step C checks

variable {C : Crates} {checks : Bool} {opt : Opt} {w : Watched}

/-- Watching changes nothing. -/
theorem app_of_reachable (h : (lts C checks opt).Reachable w) :
    (App.lts C checks opt).Reachable w.toApp := by
  induction h with
  | init h =>
    cases h
    exact .init rfl
  | step _ hs ih =>
    cases hs with
    | app _ h | sample _ h => exact ih.step h
    | feed => exact ih

theorem traffic_of_reachable (h : (lts C checks opt).Reachable w) :
    (Feed.lts TrafficInfo).Reachable w.traffic := by
  induction h with
  | init h =>
    cases h
    exact .init rfl
  | step _ hs ih =>
    cases hs with
    | app =>
      dsimp only
      split
      · exact .init rfl
      · exact ih
    | sample => exact ih.step (.tick _)
    | feed _ _ h => exact ih.step h

/-! ### The samples -/

/-- The totals of the windows that are completed. -/
def seconds (ops : List Op) : List TrafficInfo := (windows ops).1.map info

theorem seconds_clearTraffic (ops : List Op) :
    seconds (ops ++ [.clearTraffic]) = seconds ops ++ [info (windows ops).2] := by
  rw [seconds, windows_concat, Windows.add, List.map_append]
  rfl

theorem seconds_of_ne {op : Op} (ops : List Op) (h : op ≠ .clearTraffic) :
    seconds (ops ++ [op]) = seconds ops := by
  rw [seconds, windows_concat, add_of_ne h]
  rfl

theorem seconds_concat {e : PluginEvent} (es : List PluginEvent)
    (hadd : e.config? ≠ some (.addPlugin .traffic)) (hclear : e.config? ≠ some .clearTraffic) :
    seconds (App.trafficOps (es ++ [e])) = seconds (App.trafficOps es) := by
  have he : e ≠ .config (.addPlugin .traffic) := by
    rintro rfl
    exact hadd rfl
  rw [App.trafficOps_concat es he]
  cases e with
  | inPacket packet => exact seconds_of_ne _ Op.noConfusion
  | outPacket packet addrs => exact seconds_of_ne _ Op.noConfusion
  | config c =>
    cases c with
    | clearTraffic => exact absurd rfl hclear
    | addPlugin | setBlockRules | scan => exact congrArg seconds (List.append_nil _)

theorem config?_eq_some {e : PluginEvent} {c : Config} (h : e.config? = some c) :
    e = .config c := by
  cases e with
  | config c =>
    cases h
    rfl
  | inPacket | outPacket => cases h

/-- Only the sampler clears the counters. -/
theorem config_ne_clearTraffic {a : App} {l : App.Label} (h : App.Hosted C checks opt a)
    (hl : l ≠ .own .clearTraffic) : l.config a ≠ some .clearTraffic := by
  intro hc
  cases l with
  | server => cases hc
  | own =>
    cases hc
    exact hl rfl
  | startup =>
    have hmem : .clearTraffic ∈ opt.startup := by
      rw [← h.startup]
      exact List.mem_append_right _ (List.mem_of_mem_head? hc)
    have hnone := App.startup?_of_mem hmem
    cases hnone

/-- A tick takes the totals of the running window. -/
theorem running_eq {a : App} {r : Inner} (h : App.Hosted C checks opt a)
    (hr : getPlugin .traffic a.udpServer.plugins = .ok (.traffic r)) :
    r.clearTraffic.1 = info (windows (App.trafficOps a.log)).2 := by
  have hgrown := h.follows.grown .traffic
  unfold getPlugin at hr
  cases hentry : Registry.entry typeId .traffic a.udpServer.plugins with
  | none =>
    rw [hentry] at hr
    cases hr
  | some p =>
    rw [hentry] at hr hgrown
    cases hr
    cases App.traffic_eq_counted hgrown
    rfl

theorem samples_of_step {f f' : Feed TrafficInfo} {l : Feed.Label TrafficInfo}
    (h : Feed.Step f l f') (hl : ∀ x, l ≠ .tick x) : f'.samples = f.samples := by
  cases h with
  | tick x => exact absurd rfl (hl x)
  | join | leave | subscribe | poll => rfl

theorem hosted_of_reachable (h : (lts C checks opt).Reachable w) (hup : w.udpServer.Up) :
    App.Hosted C checks opt w.toApp := App.hosted_of_reachable (app_of_reachable h) hup

/-- **The samples are the totals of the windows.** -/
theorem sampled_of_reachable (h : (lts C checks opt).Reachable w) (hup : w.udpServer.Up) :
    w.traffic.samples = seconds (App.trafficOps w.log) := by
  induction h with
  | init h =>
    cases h
    rfl
  | @step w w' a h hs ih =>
    cases hs with
    | @app l a hl hs =>
      have hbefore := App.up_of_step hs hup
      have hosted := hosted_of_reachable h hbefore
      obtain ⟨_, e, hlog, hconfig⟩ := hosted.step (app_of_reachable h) hs hup
      have hclear := config_ne_clearTraffic hosted hl
      have hsamples := ih hbefore
      rw [← hconfig] at hclear
      dsimp only
      rw [← hconfig, hlog]
      cases e with
      | none =>
        rw [if_neg (fun hadd => by cases hadd), hsamples, Option.toList_none, List.append_nil]
      | some e =>
        by_cases hadd : e.config? = some (.addPlugin .traffic)
        · rw [Option.bind_some, if_pos hadd, config?_eq_some hadd, Option.toList_some,
            App.trafficOps_added]
          rfl
        · rw [Option.bind_some, if_neg hadd, hsamples, Option.toList_some,
            seconds_concat w.log hadd hclear]
    | @sample a r hr hs =>
      have hbefore := App.up_of_step hs hup
      have hosted := hosted_of_reachable h hbefore
      obtain ⟨_, e, hlog, hconfig⟩ := hosted.step (app_of_reachable h) hs hup
      obtain ⟨e, rfl, hclear⟩ := Option.bind_eq_some_iff.mp hconfig
      show w.traffic.samples ++ [r.clearTraffic.1] = seconds (App.trafficOps a.log)
      rw [hlog, config?_eq_some hclear, Option.toList_some,
        App.trafficOps_concat w.log (fun hadd => by cases hadd)]
      refine Eq.trans ?_ (seconds_clearTraffic _).symm
      rw [ih hbefore, running_eq hosted hr]
    | feed hl hopens hs => exact (samples_of_step hs hl).trans (ih hup)

/-! ### What a subscriber receives -/

theorem token_of_admitted {ctx : Ctx} {sender : Broadcast TrafficInfo 1} {token : String}
    {r : InfoStream TrafficInfo × Broadcast TrafficInfo 1}
    (h : Subscription.trafficInfo ctx sender token = .ok (.ok r)) :
    ctx.adminToken = some token := by
  unfold Subscription.trafficInfo at h
  split at h
  · rename_i htoken
    exact htoken.symm
  · cases h

theorem token_of_reachable (h : (lts C checks opt).Reachable w) :
    w.adminToken = opt.adminToken := by
  induction h with
  | init h =>
    cases h
    rfl
  | step _ hs ih =>
    cases hs with
    | app _ h | sample _ h => cases h <;> exact ih
    | feed => exact ih

theorem client_eq_none (hnone : opt.adminToken = none) (h : (lts C checks opt).Reachable w) :
    w.traffic.client = none := by
  induction h with
  | init h =>
    cases h
    rfl
  | step h hs ih =>
    cases hs with
    | app =>
      dsimp only
      split
      · rfl
      · exact ih
    | sample => exact ih
    | feed _ hopens hs =>
      cases hs with
      | tick | join | leave => exact ih
      | subscribe =>
        obtain ⟨token, r, hr⟩ := hopens trivial
        have htoken := (token_of_admitted hr).symm.trans ((token_of_reachable h).trans hnone)
        cases htoken
      | poll hc =>
        rw [ih] at hc
        cases hc

/-- A stream with its snapshot and the total of one window, of one datagram. -/
theorem exists_streamed : ∃ w c, (lts .byLayout true App.sampleOpt).Reachable w ∧
    w.udpServer.Up ∧ w.traffic.client = some c ∧
    w.log = App.sampleLog ++ [.config .clearTraffic] ∧ c.received = [.new, ⟨0, 1, 0, 1⟩] := by
  have hnew : (lts .byLayout true App.sampleOpt).Reachable (new App.sampleOpt) := .init rfl
  have hldn := hnew.step (.app App.Label.noConfusion (.startup rfl rfl))
  have htraffic := hldn.step (.app App.Label.noConfusion (.startup rfl rfl))
  have hblocker := htraffic.step (.app App.Label.noConfusion (.startup rfl rfl))
  have hrules := hblocker.step (.app App.Label.noConfusion (.startup rfl rfl))
  have hsubscribe := hrules.step (.feed (l := .subscribe TrafficInfo.new)
    (fun x hx => by cases hx) (fun _ => ⟨"secret", _, rfl⟩)
    (.subscribe TrafficInfo.new rfl rfl))
  have hsnapshot := hsubscribe.step (.feed (l := .poll) (fun x hx => by cases hx)
    (fun h => h.elim) (.poll rfl rfl))
  have hreceive := hsnapshot.step (.app App.Label.noConfusion
    (.server Server.Label.noConfusion (.receive ⟨[0], sampleClient⟩ rfl)))
  have hfilter := hreceive.step (.app App.Label.noConfusion
    (.server Server.Label.noConfusion (.filter rfl (.refl _) rfl)))
  have hsample := hfilter.step (.sample rfl (.own (.inr rfl) rfl))
  have hpoll := hsample.step (.feed (l := .poll) (fun x hx => by cases hx)
    (fun h => h.elim) (.poll rfl rfl))
  exact ⟨_, _, hpoll, ⟨RecvPhase.noConfusion, rfl⟩, rfl, rfl, rfl⟩

/-- **A traffic stream**, which only the token opens, has its snapshot and then
the totals of the windows since, as the sampler completes them, each once and in
order but for repeated ones.  It has them all when the subscriber has polled all
there is and the stream goes on. -/
theorem traffic_stream (h : (lts C checks opt).Reachable w) (hup : w.udpServer.Up)
    {c : Client TrafficInfo} (hc : w.traffic.client = some c) :
    (∃ token, opt.adminToken = some token) ∧
      w.log.filterMap PluginEvent.inPacket? = w.udpServer.heard ∧
      w.log.filterMap PluginEvent.outPacket? = w.udpServer.sentOn ∧
      w.traffic.samples = (windows (App.trafficOps w.log)).1.map info ∧
      ((c.stream.first = some c.snapshot ∧ c.received = []) ∨
        (c.stream.first = none ∧ ∃ k ≤ (w.traffic.changes c).length,
          c.received = filterSameAll (c.snapshot :: (w.traffic.changes c).take k) ∧
          (w.traffic.Drained → c.stream.live = true → k = (w.traffic.changes c).length))) := by
  have hosted := hosted_of_reachable h hup
  refine ⟨?_, hosted.heard, hosted.sentOn, sampled_of_reachable h hup,
    (Feed.followed_of_reachable (traffic_of_reachable h)).received hc⟩
  cases htoken : opt.adminToken with
  | some token => exact ⟨token, rfl⟩
  | none =>
    rw [client_eq_none htoken h] at hc
    cases hc

theorem traffic_stream_streamed : ∃ (w : Watched) (c : Client TrafficInfo),
    c.received = [.new, ⟨0, 1, 0, 1⟩] ∧ w.log = App.sampleLog ++ [.config .clearTraffic] ∧
      w.traffic.samples = [⟨0, 1, 0, 1⟩] := by
  obtain ⟨w, c, h, hup, hc, hlog, hreceived⟩ := exists_streamed
  obtain ⟨_, _, _, hsamples, _⟩ := traffic_stream h hup hc
  rw [hlog] at hsamples
  exact ⟨w, c, hreceived, hlog, hsamples⟩

end Watched

end SlpServer
