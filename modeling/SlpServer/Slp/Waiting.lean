import SlpServer.Lib.Latest
import SlpServer.Slp.Reassembly

/-!
# The fragments that wait for others

What the reassembler has can be told from the fragments it was given (`waiting`):
of the keys used last, the fragments since the last one that made a packet whole.
Its cache is exactly this (`Mirrors`): of each key the last fragment of each part
in its slot, in as many slots as the first one says (`slotsOf`).  The answer to a
fragment is the packet that it makes whole with those that wait for it, if it does
(`Mirrors.step`).

Where a key never makes a packet whole and is not pushed out by others, all its
fragments wait (`Kept`).
-/

namespace SlpServer

open Rust

namespace FragParser

/-! ### Fragments that make a packet whole -/

/-- How many parts there are to be, by the first fragment. -/
def total (b : List FragItem) : Nat := (b.head?.map fun i => i.totalPart.toNat).getD 0

/-- The last fragment of each part, in its slot. -/
def slotsOf (b : List FragItem) : Slots :=
  (List.range (total b)).map fun j => latest (fun i => if i.part.toNat = j then some i else none) b

/-- There are parts to be, and all of them are there. -/
def Whole (b : List FragItem) : Prop := 0 < total b ∧ ∀ j < total b, ∃ i ∈ b, i.part.toNat = j

instance (b : List FragItem) : Decidable (Whole b) :=
  inferInstanceAs (Decidable (_ ∧ ∀ j < total b, ∃ i ∈ b, _))

/-- The fragments that wait for others, under their keys. -/
abbrev Waiting := LruCache FragParserKey (List FragItem) 50

/-- Those of a key. -/
def Waiting.of (w : Waiting) (k : FragParserKey) : List FragItem := (w.lookup k).getD []

/-- A fragment and those that wait for it. -/
def Waiting.gather (w : Waiting) (i : FragItem) : List FragItem := w.of i.key ++ [i]

local instance : NeZero 50 := ⟨by decide⟩

/-- One more fragment makes a packet whole, or waits for others. -/
def collect (w : Waiting) (f : Ipv4Frag) : Waiting :=
  let w' := w.put f.item.key (w.gather f.item)
  if Whole (w.gather f.item) then (w'.pop f.item.key).2 else w'

def waiting (fs : List Ipv4Frag) : Waiting := fs.foldl collect .empty

section
variable {w : Waiting} {fs : List Ipv4Frag} {f : Ipv4Frag} {b : List FragItem} {i : FragItem}

theorem waiting_concat (fs : List Ipv4Frag) (f : Ipv4Frag) :
    waiting (fs ++ [f]) = collect (waiting fs) f := by
  rw [waiting, List.foldl_append]
  rfl

theorem gather_ne_nil (w : Waiting) (i : FragItem) : w.gather i ≠ [] := by
  simp [Waiting.gather]

/-! ### Slots -/

theorem total_concat (hb : b ≠ []) (i : FragItem) : total (b ++ [i]) = total b := by
  rw [total, List.head?_append_of_ne_nil b hb]
  rfl

theorem getElem?_slotsOf {j : Nat} (b : List FragItem) (hj : j < total b) : (slotsOf b)[j]? =
    some (latest (fun i => if i.part.toNat = j then some i else none) b) := by
  rw [slotsOf, List.getElem?_map, List.getElem?_range hj]
  rfl

theorem length_slotsOf (b : List FragItem) : (slotsOf b).length = total b := by
  rw [slotsOf, List.length_map, List.length_range]

/-- One fragment more is written into its slot. -/
theorem slotsOf_concat (list : Slots) (hlen : list.length = total (b ++ [i]))
    (hlist : ∀ j < list.length, list[j]? =
      some (latest (fun i => if i.part.toNat = j then some i else none) b)) :
    slotsOf (b ++ [i]) = list.set i.part.toNat (some i) := by
  apply List.ext_getElem?
  intro j
  rcases Nat.lt_or_ge j list.length with hj | hj
  · rw [getElem?_slotsOf _ (hlen ▸ hj), latest_concat, List.getElem?_set]
    by_cases hpart : i.part.toNat = j
    · rw [if_pos hpart, if_pos hpart, if_pos (hpart ▸ hj)]
      rfl
    · rw [if_neg hpart, if_neg hpart, hlist j hj, Option.none_or]
  · rw [List.getElem?_eq_none (by rw [length_slotsOf]; omega),
      List.getElem?_eq_none (by rw [List.length_set]; exact hj)]

theorem full_slotsOf_iff : Full (slotsOf b) ↔ ∀ j < total b, ∃ i ∈ b, i.part.toNat = j := by
  have hslot : ∀ j, (latest (fun i : FragItem => if i.part.toNat = j then some i else none)
      b).isSome ↔ ∃ i ∈ b, i.part.toNat = j := by
    intro j
    rw [Option.isSome_iff_ne_none, ne_eq, latest_eq_none_iff]
    simp
  simp [Full, slotsOf, hslot]

/-! ### The cache -/

/-- The entry of some waiting fragments. -/
def entryOf (x : Σ _ : FragParserKey, List FragItem) : Σ _ : FragParserKey, Slots :=
  ⟨x.1, slotsOf x.2⟩

/-- The cache has the fragments that wait, each key with some, and none with a
packet. -/
structure Mirrors (w : Waiting) (s : FragParser) : Prop where
  entries : s.cache.entries.entries = w.entries.entries.map entryOf
  waits : ∀ x ∈ w.entries.entries, x.2 ≠ [] ∧ ¬ Whole x.2

variable {s s' : FragParser} {r : Option Packet}

/-- What waits for a fragment is in the entry of its key. -/
theorem Mirrors.of_cases (h : Mirrors w s) (k : FragParserKey) :
    (w.of k = [] ∧ s.cache.lookup k = none) ∨
    (w.of k ≠ [] ∧ ¬ Whole (w.of k) ∧ s.cache.lookup k = some (slotsOf (w.of k))) := by
  have hlookup : s.cache.lookup k = (w.lookup k).map slotsOf := by
    rw [LruCache.lookup, AList.lookup, h.entries]
    exact List.dlookup_map₂ (f := fun _ => slotsOf) k
  rw [hlookup, Waiting.of]
  cases hw : w.lookup k with
  | none => exact .inl ⟨rfl, rfl⟩
  | some b =>
    obtain ⟨hne, hnot⟩ := h.waits ⟨k, b⟩ (AList.mem_lookup_iff.mp hw)
    exact .inr ⟨hne, hnot, rfl⟩

/-- The list in which a fragment is stored. -/
theorem Mirrors.stored (h : Mirrors w s) (i : FragItem) :
    (s.slotsFor i).length = total (w.gather i) ∧ s.stored i = slotsOf (w.gather i) := by
  obtain ⟨hnil, hlookup⟩ | ⟨hne, _, hlookup⟩ := h.of_cases i.key
  · have hlist : s.slotsFor i = List.replicate i.totalPart.toNat none := by
      rw [slotsFor, hlookup]
      rfl
    have hlen : (s.slotsFor i).length = total (w.gather i) := by
      rw [hlist, Waiting.gather, hnil, List.length_replicate]
      rfl
    refine ⟨hlen, (slotsOf_concat _ hlen fun j hj => ?_).symm⟩
    rw [hlist, List.length_replicate] at hj
    rw [hlist, hnil, List.getElem?_replicate, if_pos hj]
    rfl
  · have hlist : s.slotsFor i = slotsOf (w.of i.key) := slotsFor_of_lookup hlookup
    have hlen : (s.slotsFor i).length = total (w.gather i) := by
      rw [hlist, length_slotsOf, Waiting.gather, total_concat hne]
    refine ⟨hlen, (slotsOf_concat _ hlen fun j hj => ?_).symm⟩
    rw [hlist] at hj ⊢
    exact getElem?_slotsOf _ (length_slotsOf _ ▸ hj)

/-- The fragment that fills the last slot is the one that makes the packet whole. -/
theorem Mirrors.whole_iff (h : Mirrors w s) (i : FragItem) : Whole (w.gather i) ↔
    i.part.toNat < (s.slotsFor i).length ∧ Full (s.stored i) := by
  obtain ⟨hlen, hstored⟩ := h.stored i
  rw [hstored, full_slotsOf_iff, hlen]
  constructor
  · rintro ⟨hpos, hall⟩
    refine ⟨?_, hall⟩
    by_contra hpart
    -- all other parts would have made the packet whole before
    unfold Waiting.gather at hpos hall hpart
    obtain ⟨hnil, _⟩ | ⟨hne, hnot, _⟩ := h.of_cases i.key
    · obtain ⟨i', hi', hzero⟩ := hall 0 hpos
      rw [hnil, List.nil_append, List.mem_singleton] at hi'
      rw [hi'] at hzero
      omega
    · rw [total_concat hne] at hpos hall hpart
      refine hnot ⟨hpos, fun j hj => ?_⟩
      obtain ⟨i', hi', hij⟩ := hall j hj
      rcases List.mem_append.mp hi' with hi' | hi'
      · exact ⟨i', hi', hij⟩
      · rw [List.mem_singleton.mp hi'] at hij
        omega
  · rintro ⟨hpart, hall⟩
    exact ⟨Nat.zero_lt_of_lt hpart, hall⟩

/-- The entries of the other keys, as many as there is room for. -/
theorem Mirrors.others (h : Mirrors w s) (k : FragParserKey) :
    (s.cache.entries.entries.kerase k).take 49 =
      ((w.entries.entries.kerase k).take 49).map entryOf := by
  rw [h.entries, List.map_take, List.kerase, List.eraseP_map]
  rfl

/-- **One call**: the cache has what waits then, and the answer is the packet that
the fragment makes whole, if it does and the parts fit, and nothing otherwise. -/
theorem Mirrors.step (h : Mirrors w s) (hs : s.process f = .ok (r, s')) :
    Mirrors (collect w f) s' ∧
      ((Whole (w.gather f.item) ∧ assembleAll (contents (slotsOf (w.gather f.item))) = .ok r) ∨
      (¬ Whole (w.gather f.item) ∧ r = none)) := by
  have hwhole := h.whole_iff f.item
  obtain ⟨hlen, hstored⟩ := h.stored f.item
  have hothers := h.others f.item.key
  have hwaits : ∀ x ∈ (w.entries.entries.kerase f.item.key).take 49, x.2 ≠ [] ∧ ¬ Whole x.2 :=
    fun x hx => h.waits x ((List.kerase_sublist _ _).subset (List.mem_of_mem_take hx))
  have hput : ¬ Whole (w.gather f.item) → ∀ list, list = slotsOf (w.gather f.item) →
      Mirrors (collect w f) (s.store f.item list) := by
    rintro hnot list rfl
    rw [collect, if_neg hnot]
    constructor
    · rw [store, LruCache.entries_put, LruCache.entries_put, hothers]
      rfl
    · intro x hx
      rw [LruCache.entries_put] at hx
      rcases List.mem_cons.mp hx with rfl | hx
      · exact ⟨gather_ne_nil w f.item, hnot⟩
      · exact hwaits x hx
  obtain ⟨hpart, rfl, rfl⟩ | ⟨hpart, hfull, rfl, rfl⟩ | ⟨hpart, hfull, hall, rfl⟩ :=
    process_cases hs
  · have hnot : ¬ Whole (w.gather f.item) := by
      rw [hwhole]
      omega
    refine ⟨hput hnot _ ?_, .inr ⟨hnot, rfl⟩⟩
    rw [← hstored]
    exact (List.set_eq_of_length_le hpart).symm
  · have hnot : ¬ Whole (w.gather f.item) := fun hw => hfull (hwhole.mp hw).2
    exact ⟨hput hnot _ hstored, .inr ⟨hnot, rfl⟩⟩
  · have hw := hwhole.mpr ⟨hpart, hfull⟩
    refine ⟨?_, .inl ⟨hw, hstored ▸ hall⟩⟩
    rw [collect, if_pos hw]
    constructor
    · rw [forget, store, LruCache.entries_pop_put, LruCache.entries_pop_put]
      exact hothers
    · rw [LruCache.entries_pop_put]
      exact hwaits

/-! ### One key -/

/-- The fragments of a key. -/
def itemsOf (k : FragParserKey) (fs : List Ipv4Frag) : List FragItem :=
  (fs.map Ipv4Frag.item).filter fun i => i.key = k

variable {k : FragParserKey}

theorem mem_itemsOf : i ∈ itemsOf k fs ↔ i ∈ fs.map Ipv4Frag.item ∧ i.key = k := by
  rw [itemsOf, List.mem_filter, decide_eq_true_eq]

theorem itemsOf_ne_nil : itemsOf k fs ≠ [] ↔ ∃ g ∈ fs, g.item.key = k := by
  simp [itemsOf, List.filter_eq_nil_iff]

theorem itemsOf_concat_self (hk : f.item.key = k) :
    itemsOf k (fs ++ [f]) = itemsOf k fs ++ [f.item] := by
  simp [itemsOf, hk]

theorem itemsOf_concat_of_ne (hk : f.item.key ≠ k) : itemsOf k (fs ++ [f]) = itemsOf k fs := by
  simp [itemsOf, hk]

/-- All fragments of `k` wait, as long as they cannot have been pushed out. -/
structure Kept (k : FragParserKey) (fs : List Ipv4Frag) : Prop where
  absent : itemsOf k fs = [] → (waiting fs).lookup k = none
  present : itemsOf k fs ≠ [] → (since k fs).card < 50 →
    LruCache.Within (since k fs) k (itemsOf k fs) (waiting fs)

theorem kept_nil (k : FragParserKey) : Kept k [] := ⟨fun _ => rfl, fun h => absurd rfl h⟩

theorem Kept.of (h : Kept k fs) (hcard : itemsOf k fs ≠ [] → (since k fs).card < 50) :
    (waiting fs).of k = itemsOf k fs := by
  rw [Waiting.of]
  by_cases hnil : itemsOf k fs = []
  · rw [h.absent hnil, hnil]
    rfl
  · rw [(h.present hnil (hcard hnil)).lookup]
    rfl

/-- A fragment of `k` that makes no packet whole. -/
theorem Kept.own (h : Kept k fs) (hk : f.item.key = k)
    (hcard : itemsOf k fs ≠ [] → (since k fs).card < 50)
    (hnot : ¬ Whole (itemsOf k fs ++ [f.item])) : Kept k (fs ++ [f]) := by
  have hgather : (waiting fs).gather f.item = itemsOf k fs ++ [f.item] := by
    rw [Waiting.gather, hk, h.of hcard]
  rw [← hgather] at hnot
  refine ⟨fun hnil => ?_, fun _ _ => ?_⟩
  · rw [itemsOf_concat_self hk] at hnil
    exact absurd hnil (by simp)
  · rw [waiting_concat, collect, if_neg hnot, since_snoc_self hk, itemsOf_concat_self hk, hgather,
      hk]
    exact LruCache.within_put_self k _ _

/-- A fragment of another key. -/
theorem Kept.other (h : Kept k fs) (hk : f.item.key ≠ k) : Kept k (fs ++ [f]) := by
  constructor
  · intro hnil
    rw [itemsOf_concat_of_ne hk] at hnil
    have hput : ((waiting fs).put f.item.key ((waiting fs).gather f.item)).lookup k = none := by
      cases hp : ((waiting fs).put f.item.key ((waiting fs).gather f.item)).lookup k with
      | none => rfl
      | some b =>
        have hold := LruCache.lookup_put_of_ne (Ne.symm hk) hp
        rw [h.absent hnil] at hold
        cases hold
    rw [waiting_concat, collect]
    split
    · rw [LruCache.lookup_pop_of_ne (Ne.symm hk), hput]
    · exact hput
  · intro hne hcard
    rw [itemsOf_concat_of_ne hk] at hne ⊢
    rw [since_snoc_of_ne hk] at hcard ⊢
    have hbefore : (since k fs).card < 50 :=
      Nat.lt_of_le_of_lt (Finset.card_le_card (Finset.subset_insert _ _)) hcard
    have hput := (h.present hne hbefore).put hk hcard ((waiting fs).gather f.item)
    rw [waiting_concat, collect]
    split
    · exact hput.pop hk
    · exact hput

/-- All fragments of `k` wait where before each of them fewer than fifty other
keys come, and none makes a packet whole. -/
theorem kept_of_forall
    (hcard : ∀ a g c, fs = a ++ g :: c → g.item.key = k → itemsOf k a ≠ [] →
      (since k a).card < 50)
    (hnot : ∀ a g c, fs = a ++ g :: c → g.item.key = k → ¬ Whole (itemsOf k a ++ [g.item])) :
    Kept k fs := by
  induction fs using List.reverseRecOn with
  | nil => exact kept_nil k
  | append_singleton fs f ih =>
    have hkept : Kept k fs := by
      refine ih (fun a g c hfs => ?_) fun a g c hfs => ?_
      · exact hcard a g (c ++ [f]) (by simp [hfs])
      · exact hnot a g (c ++ [f]) (by simp [hfs])
    by_cases hk : f.item.key = k
    · exact hkept.own hk (hcard fs f [] rfl hk) (hnot fs f [] rfl hk)
    · exact hkept.other hk

end

end FragParser

end SlpServer
