import SlpServer.Lib.Keyed
import SlpServer.Plugin.Fragments

/-!
# Flows do not meet

All fragments go through one cache of fifty slot lists.  As long as between two
fragments of a key there are fewer than fifty other keys, the fragments of each
key are answered as if they had a reassembler of their own
(`FragParser.keys_isolated`), and the blocker says of each datagram what it says when
it sees the datagrams of that key only (`flows_isolated`).  The two are instances
of `Keyed.Spaced.apart`: `fill` is the work on one slot list.
-/

namespace SlpServer

open Rust Keyed

namespace FragParser

/-- What `process` does with the slot list of a fragment: the answer, the list
afterwards, and whether it goes. -/
def fill (i : FragItem) (list : Slots) : Exec (Option Packet × Slots × Bool) :=
  if i.part.toNat < list.length then
    let stored := list.set i.part.toNat (some i)
    if Full stored then do
      let packet ← assembleAll (contents stored)
      pure (packet, stored, true)
    else
      pure (none, stored, false)
  else
    pure (none, list, false)

/-- A call is work on the slot list of its key. -/
theorem process_eq_fill (s : FragParser) (f : Ipv4Frag) :
    s.process f = (do
      let x ← fill f.item (s.slotsFor f.item)
      pure (x.1, ⟨if x.2.2 then ((s.cache.put f.item.key x.2.1).pop f.item.key).2
        else s.cache.put f.item.key x.2.1⟩)) := by
  rw [process_eq, fill]
  split
  · split
    · rename_i hfull
      rw [show (s.slotsFor f.item).set f.item.part.toNat (some f.item) = s.stored f.item from rfl,
        if_pos hfull]
      cases assembleAll (contents (s.stored f.item)) <;> rfl
    · rename_i hfull
      rw [show (s.slotsFor f.item).set f.item.part.toNat (some f.item) = s.stored f.item from rfl,
        if_neg hfull]
      rfl
  · rfl

/-- The reassembler as keyed work. -/
def work : Work Ipv4Frag FragParserKey Slots (Option Packet) where
  key f := some f.item.key
  plain _ := .ok none
  keyed f entry := fill f.item (entry.getD (List.replicate f.item.totalPart.toNat none))

theorem process_cached (c : LruCache FragParserKey Slots 50) (f : Ipv4Frag) :
    process ⟨c⟩ f = (do let x ← work.cached c f; pure (x.1, ⟨x.2⟩)) := by
  have hkeyed : work.keyed f (c.lookup f.item.key) = fill f.item (slotsFor ⟨c⟩ f.item) := rfl
  rw [process_eq_fill, Work.cached_keyed (w := work) (k := f.item.key) rfl, hkeyed]
  cases fill f.item (slotsFor ⟨c⟩ f.item) <;> rfl

/-- Fragments one after the other, each with what `process` answers. -/
def answers (self : FragParser) (fs : List Ipv4Frag) :
    Exec (List (Ipv4Frag × Option Packet) × FragParser) := Keyed.run process self fs

/-- Between two fragments of a key there are fewer than fifty other keys. -/
def Spaced (fs : List Ipv4Frag) : Prop := Keyed.Spaced 50 (fun f => some f.item.key) fs

/-- **Keys are isolated.**  Where between two fragments of a key there are fewer
than fifty other keys, a run of fragments panics exactly when those of some key
do alone, and the fragments of each key are answered as alone. -/
theorem keys_isolated {fs : List Ipv4Frag} (h : Spaced fs) :
    (Returns (new.answers fs) ↔
      ∀ k, Returns (new.answers (fs.filter fun f => f.item.key = k))) ∧
    ∀ out s, new.answers fs = .ok (out, s) → ∀ k, ∃ s',
      new.answers (fs.filter fun f => f.item.key = k) =
        .ok (out.filter fun x => x.1.item.key = k, s') := by
  obtain ⟨hiff, hanswers⟩ :=
    Keyed.Spaced.apart_embed (w := work) FragParser.mk process_cached h
  have hof : ∀ k, ofKey work.key (some k) fs = fs.filter fun f => f.item.key = k := by
    intro k
    simp only [ofKey, work, Option.some.injEq]
  refine ⟨hiff.trans ⟨fun hall k => hof k ▸ hall (some k), fun hall o => ?_⟩, ?_⟩
  · cases o with
    | none =>
      have hnil : ofKey work.key none fs = [] := List.filter_eq_nil_iff.mpr fun f _ => by
        simp [work]
      rw [hnil]
      exact returns_ok _
    | some k => exact hof k ▸ hall k
  · intro out s hrun k
    obtain ⟨s', hrun'⟩ := hanswers out s hrun (some k)
    refine ⟨s', ?_⟩
    rw [hof] at hrun'
    rw [answers, new, hrun', answersOf]
    simp [work]

/-- A fragment of another packet. -/
def strayPart : Ipv4Frag :=
  ⟨[10, 13, 37, 102, 10, 13, 37, 101, 0, 1, 1, 2, 0, 2, 0, 3, 3, 4], by decide⟩

theorem keys_isolated_strayPart : ∃ s, new.answers [firstHalf, secondHalf] =
    .ok ([(firstHalf, none), (secondHalf, some [0, 1, 2, 3, 4])], s) := by
  have hspaced : Spaced [firstHalf, strayPart, secondHalf] := spaced_of_length (by decide)
  have hrun : ∃ s, new.answers [firstHalf, strayPart, secondHalf] =
    .ok ([(firstHalf, none), (strayPart, none), (secondHalf, some [0, 1, 2, 3, 4])], s) := ⟨_, rfl⟩
  obtain ⟨s, hrun⟩ := hrun
  exact (keys_isolated hspaced).2 _ s hrun firstHalf.item.key

end FragParser

/-! ### The blocker -/

/-- The key of a datagram, if it is a fragment. -/
def flowOf (d : InPacket) : Option FragParserKey := (fragOf d).map fun f => f.item.key

/-- What is no fragment leaves the reassembler alone, and does not depend on it. -/
theorem lanPacket_of_not_frag {d : InPacket} (h : fragOf d = none) :
    ∃ packet, ∀ s, lanPacket s d = .ok (packet, s) := by
  have hfrag : ∀ f, ForwarderFrame.parse d.data ≠ .ok (.ok (.ipv4Frag f)) := by
    intro f hf
    rw [fragOf_eq_some.mpr hf] at h
    cases h
  by_cases hplain : ∃ v, ForwarderFrame.parse d.data = .ok (.ok (.ipv4 v))
  · obtain ⟨v, hv⟩ := hplain
    exact ⟨_, fun s => lanPacket_ipv4 hv⟩
  · exact ⟨none, fun s => lanPacket_none (fun v hv => hplain ⟨v, hv⟩) hfrag⟩

/-- `lanPacket` as keyed work. -/
def lanWork : Work InPacket FragParserKey Slots (Option LanPacket) where
  key := flowOf
  plain d := do
    let (packet, _) ← lanPacket FragParser.new d
    pure packet
  keyed d entry :=
    match fragOf d with
    | none => .ok (none, [], false)
    | some f => do
      let (p, list, taken) ← FragParser.work.keyed f entry
      pure (p.map fun p => (f.item.srcIp, f.item.dstIp, p), list, taken)

theorem lanPacket_cached (c : LruCache FragParserKey Slots 50) (d : InPacket) :
    lanPacket ⟨c⟩ d = (do let x ← lanWork.cached c d; pure (x.1, ⟨x.2⟩)) := by
  cases hd : fragOf d with
  | none =>
    have hkey : lanWork.key d = none := by simp [lanWork, flowOf, hd]
    obtain ⟨packet, hpacket⟩ := lanPacket_of_not_frag hd
    rw [Work.cached_plain hkey, hpacket]
    simp only [lanWork, hpacket]
    rfl
  | some f =>
    have hkey : lanWork.key d = some f.item.key := by simp [lanWork, flowOf, hd]
    rw [Work.cached_keyed hkey, lanPacket_frag (fragOf_eq_some.mp hd), FragParser.process_cached,
      Work.cached_keyed (w := FragParser.work) (k := f.item.key) rfl]
    simp only [lanWork, hd]
    cases FragParser.work.keyed f (c.lookup f.item.key) <;> rfl

namespace BlockerPlugin

/-- Datagrams one after the other, each with the verdict. -/
def verdicts (C : Crates) (self : BlockerPlugin) (ds : List InPacket) :
    Exec (List (InPacket × Except Unit Unit) × BlockerPlugin) :=
  Keyed.run (inPacket C) self ds

theorem inPacket_cached (C : Crates) (rules : List Rule) (c : LruCache FragParserKey Slots 50)
    (d : InPacket) : inPacket C ⟨⟨c⟩, rules⟩ d = (do
      let x ← (lanWork.map fun p => verdict C rules (p.map fun x => x.2.2)).cached c d
      pure (x.1, ⟨⟨x.2⟩, rules⟩)) := by
  rw [inPacket_eq, lanPacket_cached, Work.cached_map]
  cases lanWork.cached c d <;> rfl

/-- **Flows are isolated.**  Where between two fragments of a key there are fewer
than fifty other keys, the blocker panics exactly when it would on the fragments
of some key alone, says of each fragment what it says when it sees those of its
key only, and of the other datagrams what it says without the fragments. -/
theorem flows_isolated (C : Crates) (rules : List Rule) {ds : List InPacket}
    (h : Keyed.Spaced 50 flowOf ds) :
    (Returns ((new.setBlockRules rules).verdicts C ds) ↔
      ∀ o, Returns ((new.setBlockRules rules).verdicts C (ds.filter fun d => flowOf d = o))) ∧
    ∀ out b, (new.setBlockRules rules).verdicts C ds = .ok (out, b) → ∀ o, ∃ b',
      (new.setBlockRules rules).verdicts C (ds.filter fun d => flowOf d = o) =
        .ok (out.filter fun x => flowOf x.1 = o, b') := by
  exact Keyed.Spaced.apart_embed (fun c => BlockerPlugin.mk ⟨c⟩ rules) (inPacket_cached C rules) h

/-- Another client's fragment, and no frame at all. -/
def strays : List InPacket :=
  [⟨fragmentFrame udpToPort5000 14 8 1, sampleClient⟩, ⟨[], sampleClient⟩]

theorem flows_isolated_strays :
    ∃ b, (new.setBlockRules [⟨.udp, 5000⟩]).verdicts .byLayout [half 1, half 0] =
      .ok ([(half 1, .ok ()), (half 0, .error ())], b) := by
  have hspaced : Keyed.Spaced 50 flowOf (half 1 :: strays ++ [half 0]) :=
    spaced_of_length (by decide)
  have hrun : ∃ b, (new.setBlockRules [⟨.udp, 5000⟩]).verdicts .byLayout
      (half 1 :: strays ++ [half 0]) =
        .ok ((half 1, .ok ()) :: strays.map (fun d => (d, .ok ())) ++ [(half 0, .error ())], b) :=
    ⟨_, rfl⟩
  obtain ⟨b, hrun⟩ := hrun
  exact (flows_isolated .byLayout [⟨.udp, 5000⟩] hspaced).2 _ b hrun (flowOf (half 1))

end BlockerPlugin

end SlpServer
