import SlpServer.Lib.Tiling
import SlpServer.Slp.FragParser

/-!
# What the reassembler answers

Two results about `FragParser` over whole runs.

* `feed_no_panic_iff`: a sequence of datagrams crashes the reassembler exactly
  when one of them fills the last slot of a list that holds a `Clash`.  The
  `len` field is taken on trust, and nothing compares it with the data.
* `reassembles`: the fragments of one packet, in any order and with any
  repetition, between fragments of other keys, answer with that packet at the
  first fragment that leaves no part missing, and with nothing before.

The second follows the entry of one key through the run.  `Holds` says which
parts a slot list has, `Entry` that the entry holds the parts seen and that the
keys used since its last use are the ones of the frames since; `Within` of the
cache library then says the entry is still there.
-/

namespace SlpServer

open Rust Tiling

namespace FragParser

/-! ### One call, inverted -/

/-- **The three ways a call returns.** -/
theorem process_cases {s s' : FragParser} {f : Ipv4Frag} {r : Option Packet}
    (h : s.process f = .ok (r, s')) :
    ((s.slotsFor f.item).length ≤ f.item.part.toNat ∧ r = none ∧
      s' = s.store f.item (s.slotsFor f.item)) ∨
    (f.item.part.toNat < (s.slotsFor f.item).length ∧ ¬ Full (s.stored f.item) ∧ r = none ∧
      s' = s.store f.item (s.stored f.item)) ∨
    (f.item.part.toNat < (s.slotsFor f.item).length ∧ Full (s.stored f.item) ∧
      assembleAll (contents (s.stored f.item)) = .ok r ∧
      s' = (s.store f.item (s.stored f.item)).forget f.item) := by
  rw [process_eq] at h
  split at h
  · rename_i hp
    split at h
    · rename_i hf
      obtain ⟨p, hp', h⟩ := bind_eq_ok.mp h
      cases h
      exact .inr (.inr ⟨hp, hf, hp', rfl⟩)
    · rename_i hf
      cases h
      exact .inr (.inl ⟨hp, hf, rfl, rfl⟩)
  · rename_i hp
    cases h
    exact .inl ⟨by omega, rfl, rfl⟩

/-- The fragment fills the last empty slot of its list, and copying the list
meets a part that cannot be copied. -/
def Trips (s : FragParser) (i : FragItem) : Prop :=
  i.part.toNat < (s.slotsFor i).length ∧ Full (s.stored i) ∧
    Clash (size (contents (s.stored i))) (contents (s.stored i))

instance (s : FragParser) (i : FragItem) : Decidable (s.Trips i) :=
  inferInstanceAs (Decidable (_ ∧ _ ∧ _))

/-- **A call panics exactly when it trips.** -/
theorem process_ok_iff (s : FragParser) (f : Ipv4Frag) :
    (∃ x, s.process f = .ok x) ↔ ¬ s.Trips f.item := by
  rw [process_eq, Trips]
  by_cases hp : f.item.part.toNat < (s.slotsFor f.item).length
  · by_cases hf : Full (s.stored f.item)
    · rw [if_pos hp, if_pos hf, ← assembleAll_error_iff]
      cases assembleAll (contents (s.stored f.item)) with
      | error e => simp [hp, hf]
      | ok p => simp
    · simp [if_pos hp, hf]
  · simp [hp]

/-! ### What the slots hold -/

/-- Every slot list in the cache satisfies `q`. -/
def ListsAll (q : FragParserKey → Slots → Prop) (s : FragParser) : Prop :=
  ∀ k list, s.cache.lookup k = some list → q k list

theorem listsAll_new (q : FragParserKey → Slots → Prop) : ListsAll q new := by
  intro k list h
  cases h

section

variable {q : FragParserKey → Slots → Prop} {s s' : FragParser}

theorem ListsAll.slotsFor (h : ListsAll q s) {i : FragItem}
    (hnew : q i.key (List.replicate i.totalPart.toNat none)) : q i.key (s.slotsFor i) := by
  unfold FragParser.slotsFor
  cases hl : s.cache.lookup i.key with
  | some list => exact h _ _ hl
  | none => exact hnew

theorem ListsAll.store (h : ListsAll q s) {i : FragItem} {list : Slots} (hl : q i.key list) :
    ListsAll q (s.store i list) := by
  intro k list' hk
  by_cases he : k = i.key
  · subst he
    rw [FragParser.store, LruCache.lookup_put_self] at hk
    cases hk
    exact hl
  · exact h k list' (LruCache.lookup_put_of_ne he hk)

theorem ListsAll.store_forget (h : ListsAll q s) (i : FragItem) (list : Slots) :
    ListsAll q ((s.store i list).forget i) := by
  intro k list' hk
  rw [FragParser.forget] at hk
  by_cases he : k = i.key
  · rw [he, LruCache.lookup_pop_self] at hk
    cases hk
  · rw [LruCache.lookup_pop_of_ne he] at hk
    exact h k list' (LruCache.lookup_put_of_ne he hk)

/-- A property of new lists that filling a slot keeps is one of all lists. -/
theorem ListsAll.process (h : ListsAll q s) {f : Ipv4Frag} {r : Option Packet}
    (hnew : q f.item.key (List.replicate f.item.totalPart.toNat none))
    (hset : q f.item.key (s.slotsFor f.item) → f.item.part.toNat < (s.slotsFor f.item).length →
      ¬ Full (s.stored f.item) → q f.item.key (s.stored f.item))
    (hs : s.process f = .ok (r, s')) : ListsAll q s' := by
  have hold := h.slotsFor hnew
  obtain ⟨_, _, rfl⟩ | ⟨hp, hf, _, rfl⟩ | ⟨_, _, _, rfl⟩ := process_cases hs
  · exact h.store hold
  · exact h.store (hset hold hp hf)
  · exact h.store_forget _ _

end

/-- Every fragment in the cache satisfies `p`. -/
def SlotsAll (p : FragItem → Prop) (s : FragParser) : Prop :=
  ∀ k list, s.cache.lookup k = some list → ∀ i, some i ∈ list → p i

theorem slotsAll_new (p : FragItem → Prop) : SlotsAll p new := listsAll_new _

theorem all_of_empty {p : FragItem → Prop} (n : Nat) :
    ∀ i, some i ∈ List.replicate n (none : Option FragItem) → p i := by
  intro i hi
  exact absurd (List.eq_of_mem_replicate hi) (by simp)

theorem all_set {p : FragItem → Prop} {list : Slots} (h : ∀ i, some i ∈ list → p i) {i : FragItem}
    (hi : p i) (n : Nat) : ∀ j, some j ∈ list.set n (some i) → p j := by
  intro j hj
  rcases List.mem_or_eq_of_mem_set hj with hj | hj
  · exact h j hj
  · cases hj
    exact hi

theorem SlotsAll.stored {p : FragItem → Prop} {s : FragParser} (h : SlotsAll p s)
    {i : FragItem} (hi : p i) : ∀ j, some j ∈ s.stored i → p j :=
  all_set (ListsAll.slotsFor h (all_of_empty _)) hi _

/-- A property of fragments that every frame has is a property of the slots. -/
theorem SlotsAll.process {p : FragItem → Prop} {s s' : FragParser} (h : SlotsAll p s)
    {f : Ipv4Frag} (hf : p f.item) {r : Option Packet} (hs : s.process f = .ok (r, s')) :
    SlotsAll p s' :=
  ListsAll.process h (all_of_empty _) (fun _ _ _ => h.stored hf) hs

theorem mem_contents {list : Slots} {i : FragItem} : i ∈ contents list ↔ some i ∈ list := by
  simp [contents]

/-- Where every `len` is a size, nothing trips. -/
theorem not_trips {s : FragParser} (h : SlotsAll FragItem.LenOk s) {i : FragItem}
    (hi : i.LenOk) : ¬ s.Trips i := by
  rintro ⟨_, _, hc⟩
  exact not_clash (fun j hj => h.stored hi j (mem_contents.mp hj)) hc

/-! ### Datagrams that crash the reassembler -/

/-- A sequence of datagrams, one after the other. -/
def feed (self : FragParser) (ds : List Packet) : Exec FragParser := ds.foldlM receive self

theorem receive_ok_iff (s : FragParser) (d : Packet) :
    (∃ s', s.receive d = .ok s') ↔
      ∀ f, ForwarderFrame.parse d = .ok (.ok (.ipv4Frag f)) → ¬ s.Trips f.item := by
  by_cases hfrag : ∃ f, ForwarderFrame.parse d = .ok (.ok (.ipv4Frag f))
  · obtain ⟨f, hf⟩ := hfrag
    have hall : (∀ g, ForwarderFrame.parse d = .ok (.ok (.ipv4Frag g)) → ¬ s.Trips g.item) ↔
        ¬ s.Trips f.item := by
      constructor
      · intro h
        exact h f hf
      · intro h g hg
        rw [hf] at hg
        cases hg
        exact h
    rw [receive_frag hf, hall, ← process_ok_iff]
    cases s.process f with
    | error e => simp
    | ok x => simp
  · rw [not_exists] at hfrag
    constructor
    · intro _ f hf
      exact absurd hf (hfrag f)
    · intro _
      exact ⟨s, receive_other hfrag⟩

theorem SlotsAll.receive {p : FragItem → Prop} {s s' : FragParser} (h : SlotsAll p s)
    {d : Packet} (hd : ∀ f, ForwarderFrame.parse d = .ok (.ok (.ipv4Frag f)) → p f.item)
    (hs : s.receive d = .ok s') : SlotsAll p s' := by
  by_cases hfrag : ∃ f, ForwarderFrame.parse d = .ok (.ok (.ipv4Frag f))
  · obtain ⟨f, hf⟩ := hfrag
    rw [receive_frag hf, bind_eq_ok] at hs
    obtain ⟨x, hx, hs⟩ := hs
    cases hs
    exact h.process (hd f hf) hx
  · rw [receive_other (not_exists.mp hfrag)] at hs
    cases hs
    exact h

theorem SlotsAll.feed {p : FragItem → Prop} {s s' : FragParser} (h : SlotsAll p s)
    {ds : List Packet}
    (hd : ∀ d ∈ ds, ∀ f, ForwarderFrame.parse d = .ok (.ok (.ipv4Frag f)) → p f.item)
    (hs : s.feed ds = .ok s') : SlotsAll p s' := by
  induction ds generalizing s with
  | nil => cases hs; exact h
  | cons d ds ih =>
    rw [FragParser.feed, List.foldlM_cons, bind_eq_ok] at hs
    obtain ⟨t, ht, hs⟩ := hs
    exact ih (h.receive (hd d (by simp)) ht) (fun e he => hd e (by simp [he])) hs

/-- **When datagrams crash the reassembler**: exactly when one of them is a
fragment that trips in the state it meets.  Where every fragment's `len` is the
size of its data none does. -/
theorem feed_no_panic_iff (ds : List Packet) :
    ((∃ s, new.feed ds = .ok s) ↔
      ∀ pre d post s f, ds = pre ++ d :: post → new.feed pre = .ok s →
        ForwarderFrame.parse d = .ok (.ok (.ipv4Frag f)) → ¬ s.Trips f.item) ∧
    ((∀ d ∈ ds, ∀ f, ForwarderFrame.parse d = .ok (.ok (.ipv4Frag f)) → f.item.LenOk) →
      ∃ s, new.feed ds = .ok s) := by
  have hiff : (∃ s, new.feed ds = .ok s) ↔
      ∀ pre d post s, ds = pre ++ d :: post → new.feed pre = .ok s →
        ∀ f, ForwarderFrame.parse d = .ok (.ok (.ipv4Frag f)) → ¬ s.Trips f.item := by
    rw [feed, foldlM_ok_iff]
    simp only [receive_ok_iff]
    rfl
  refine ⟨hiff.trans ⟨fun h pre d post s f hds hpre hd => h pre d post s hds hpre f hd,
    fun h pre d post s hds hpre f hd => h pre d post s f hds hpre hd⟩, fun h => hiff.mpr ?_⟩
  intro pre d post s hds hpre f hd
  have hs : SlotsAll FragItem.LenOk s := (slotsAll_new _).feed
    (fun e he => h e (by rw [hds]; simp [he])) hpre
  exact not_trips hs (h d (by rw [hds]; simp) f hd)

/-- One datagram is enough: part 0 of 1 that claims three bytes and has none. -/
def crashingDatagram : Packet :=
  [3, 10, 13, 37, 100, 10, 13, 37, 101, 0, 1, 0, 1, 0, 3, 0, 3]

theorem feed_panics : ¬ ∀ ds : List Packet, ∃ s, new.feed ds = .ok s := by
  intro h
  obtain ⟨s, hs⟩ := h [crashingDatagram]
  have hcrash : new.feed [crashingDatagram] = .error .lengthMismatch := rfl
  rw [hcrash] at hs
  cases hs

/-! ### Honest fragments -/

/-- `i` is one of the fragments of `p` under key `k`, cut at `m` bytes. -/
structure Honest (p : Packet) (m : Nat) (k : FragParserKey) (i : FragItem) : Prop where
  key : i.key = k
  part : i.part.toNat < pieces m p
  data : i.data = chunk m p i.part.toNat
  len : i.LenOk
  pmtu : i.pmtu.toNat = m
  total : i.totalPart.toNat = pieces m p

theorem Honest.pos {p : Packet} {m : Nat} {k : FragParserKey} {i : FragItem}
    (h : Honest p m k i) : 0 < m := by
  rcases Nat.eq_zero_or_pos m with rfl | hm
  · have := h.part
    rw [pieces, Nat.div_zero] at this
    omega
  · exact hm

theorem Honest.start {p : Packet} {m : Nat} {k : FragParserKey} {i : FragItem}
    (h : Honest p m k i) : i.start = i.part.toNat * m := by
  rw [FragItem.start, h.pmtu, Nat.mul_comm]

theorem Honest.length {p : Packet} {m : Nat} {k : FragParserKey} {i : FragItem}
    (h : Honest p m k i) : i.len.toNat = min m (p.length - i.part.toNat * m) := by
  rw [h.len, h.data, length_chunk]

/-- The parts in order, from the `n`-th on. -/
def InOrder (p : Packet) (m : Nat) (k : FragParserKey) (n : Nat) (list : List FragItem) : Prop :=
  ∀ j i, list[j]? = some i → Honest p m k i ∧ i.part.toNat = n + j

theorem InOrder.tail {p : Packet} {m n : Nat} {k : FragParserKey} {i : FragItem}
    {list : List FragItem} (h : InOrder p m k n (i :: list)) : InOrder p m k (n + 1) list := by
  intro j i' hj
  have := h (j + 1) i' (by rw [List.getElem?_cons_succ]; exact hj)
  exact ⟨this.1, by omega⟩

/-- Copying the parts in order fills the packet from the front. -/
theorem assemble_inOrder {p : Packet} {m n : Nat} {k : FragParserKey} {list : List FragItem}
    (h : InOrder p m k n list) :
    assemble list (filled 0 p (n * m)) = .ok (some (filled 0 p ((n + list.length) * m))) := by
  induction list generalizing n with
  | nil => rfl
  | cons i list ih =>
    obtain ⟨hi, hn⟩ := h 0 i rfl
    rw [Nat.add_zero] at hn
    have hlt := mul_lt_length hi.pos hi.part
    have hin : i.start + i.len.toNat ≤ (filled 0 p (n * m)).length := by
      rw [hi.start, hi.length, length_filled]
      omega
    rw [assemble_cons hin hi.len, hi.start, hi.data, hn, writeRange_chunk 0 (hn ▸ hlt),
      ih h.tail, List.length_cons]
    congr 4
    omega

theorem size_eq_sum (list : List FragItem) : size list = (list.map fun i => i.len.toNat).sum := by
  rw [size, List.sum_eq_foldl, List.foldl_map]

/-- All parts in order: their lengths add up to the packet, and copied they are
the packet. -/
theorem assembleAll_inOrder {p : Packet} {m : Nat} {k : FragParserKey} {list : List FragItem}
    (h : InOrder p m k 0 list) (hlen : list.length = pieces m p) (hm : 0 < m) :
    assembleAll list = .ok (some p) := by
  have hmap : list.map (fun i => i.len.toNat) =
      (List.range (pieces m p)).map fun j => (chunk m p j).length := by
    apply List.ext_getElem?
    intro j
    rw [List.getElem?_map, List.getElem?_map]
    by_cases hj : j < list.length
    · obtain ⟨hi, hpart⟩ := h j list[j] (List.getElem?_eq_getElem hj)
      rw [List.getElem?_eq_getElem hj, List.getElem?_range (hlen ▸ hj), Option.map_some,
        Option.map_some, hi.len, hi.data, hpart, Nat.zero_add]
    · rw [List.getElem?_eq_none (by omega),
        List.getElem?_eq_none (by rw [List.length_range]; omega)]
      rfl
  have hsize : size list = p.length := by rw [size_eq_sum, hmap, sum_length_chunks hm]
  have hasm := assemble_inOrder h
  rw [Nat.zero_mul, filled_zero, Nat.zero_add, hlen,
    filled_of_le 0 (length_le_pieces_mul hm p)] at hasm
  rw [assembleAll, hsize, hasm]

/-! ### The slots of one key -/

/-- The slot list of `p` with exactly the parts of `seen` filled in. -/
structure Holds (p : Packet) (m : Nat) (k : FragParserKey) (seen : Nat → Prop) (list : Slots) :
    Prop where
  length : list.length = pieces m p
  honest : ∀ j i, list[j]? = some (some i) → Honest p m k i ∧ i.part.toNat = j
  filled : ∀ j, (∃ i, list[j]? = some (some i)) ↔ j < pieces m p ∧ seen j

theorem holds_empty (p : Packet) (m : Nat) (k : FragParserKey) :
    Holds p m k (fun _ => False) (List.replicate (pieces m p) none) where
  length := List.length_replicate
  honest j i h := by
    rw [List.getElem?_replicate] at h
    split at h <;> cases h
  filled j := by
    refine ⟨?_, fun h => h.2.elim⟩
    rintro ⟨i, h⟩
    rw [List.getElem?_replicate] at h
    split at h <;> cases h

theorem Holds.set {p : Packet} {m : Nat} {k : FragParserKey} {seen : Nat → Prop} {list : Slots}
    (h : Holds p m k seen list) {i : FragItem} (hi : Honest p m k i) :
    Holds p m k (fun j => seen j ∨ i.part.toNat = j) (list.set i.part.toNat (some i)) where
  length := by rw [List.length_set, h.length]
  honest j i' hj := by
    rw [List.getElem?_set] at hj
    split at hj
    · split at hj
      · cases hj
        exact ⟨hi, by assumption⟩
      · cases hj
    · exact h.honest j i' hj
  filled j := by
    have hlen := h.length
    have hpart := hi.part
    rw [List.getElem?_set]
    by_cases hj : i.part.toNat = j
    · rw [if_pos hj, if_pos (by omega)]
      exact ⟨fun _ => ⟨by omega, .inr hj⟩, fun _ => ⟨i, rfl⟩⟩
    · rw [if_neg hj, h.filled j]
      simp [hj]

/-- No slot is empty once every part is there. -/
theorem Holds.full_iff {p : Packet} {m : Nat} {k : FragParserKey} {seen : Nat → Prop}
    {list : Slots} (h : Holds p m k seen list) : Full list ↔ ∀ j < pieces m p, seen j := by
  constructor
  · intro hf j hj
    have hlt : j < list.length := by rw [h.length]; exact hj
    obtain ⟨i, hi⟩ := Option.isSome_iff_exists.mp (hf list[j] (List.getElem_mem hlt))
    exact ((h.filled j).mp ⟨i, by rw [List.getElem?_eq_getElem hlt, hi]⟩).2
  · intro hs o ho
    obtain ⟨j, hj, rfl⟩ := List.getElem_of_mem ho
    obtain ⟨i, hi⟩ := (h.filled j).mpr ⟨h.length ▸ hj, hs j (h.length ▸ hj)⟩
    rw [List.getElem?_eq_getElem hj, Option.some.injEq] at hi
    rw [hi]
    rfl

theorem Holds.inOrder {p : Packet} {m : Nat} {k : FragParserKey} {seen : Nat → Prop}
    {list : Slots} (h : Holds p m k seen list) (hf : Full list) :
    InOrder p m k 0 (contents list) := by
  intro j i hj
  have hget : list[j]? = some (some i) := by
    rw [← map_some_contents hf, List.getElem?_map, hj]
    rfl
  rw [Nat.zero_add]
  exact h.honest j i hget

theorem Holds.length_contents {p : Packet} {m : Nat} {k : FragParserKey} {seen : Nat → Prop}
    {list : Slots} (h : Holds p m k seen list) (hf : Full list) :
    (contents list).length = pieces m p := by
  rw [← h.length, ← List.length_map (f := some), map_some_contents hf]

theorem Holds.lenOk {p : Packet} {m : Nat} {k : FragParserKey} {seen : Nat → Prop} {list : Slots}
    (h : Holds p m k seen list) : ∀ i, some i ∈ list → i.LenOk := by
  intro i hi
  obtain ⟨j, hj, he⟩ := List.getElem_of_mem hi
  exact (h.honest j i (by rw [List.getElem?_eq_getElem hj, he])).1.len

/-- A part that leaves another missing is stored. -/
theorem process_more {p : Packet} {m : Nat} {k : FragParserKey} {seen : Nat → Prop}
    {s : FragParser} {f : Ipv4Frag} (h : Holds p m k seen (s.slotsFor f.item))
    (hf : Honest p m k f.item)
    (hmore : ¬ ∀ j < pieces m p, seen j ∨ f.item.part.toNat = j) :
    s.process f = .ok (none, s.store f.item (s.stored f.item)) := by
  have hp : f.item.part.toNat < (s.slotsFor f.item).length := by rw [h.length]; exact hf.part
  have hnf : ¬ Full (s.stored f.item) := fun hfull => hmore ((h.set hf).full_iff.mp hfull)
  rw [process_eq, if_pos hp, if_neg hnf]

/-- The part that leaves none missing answers with the packet and clears
the entry. -/
theorem process_last {p : Packet} {m : Nat} {k : FragParserKey} {seen : Nat → Prop}
    {s : FragParser} {f : Ipv4Frag} (h : Holds p m k seen (s.slotsFor f.item))
    (hf : Honest p m k f.item)
    (hlast : ∀ j < pieces m p, seen j ∨ f.item.part.toNat = j) :
    s.process f = .ok (some p, (s.store f.item (s.stored f.item)).forget f.item) := by
  have hp : f.item.part.toNat < (s.slotsFor f.item).length := by rw [h.length]; exact hf.part
  have hset : Holds p m k _ (s.stored f.item) := h.set hf
  have hfull := hset.full_iff.mpr hlast
  rw [process_eq, if_pos hp, if_pos hfull,
    assembleAll_inOrder (hset.inOrder hfull) (hset.length_contents hfull) hf.pos]
  rfl

/-- The list a fragment of a key without an entry is looked up in. -/
theorem holds_slotsFor_new {p : Packet} {m : Nat} {k : FragParserKey} {s : FragParser}
    {i : FragItem} (hi : Honest p m k i) (hk : s.cache.lookup k = none) :
    Holds p m k (fun _ => False) (s.slotsFor i) := by
  rw [slotsFor, hi.key, hk, Option.getD_none, hi.total]
  exact holds_empty p m k

theorem slotsFor_of_lookup {s : FragParser} {i : FragItem} {list : Slots}
    (h : s.cache.lookup i.key = some list) : s.slotsFor i = list := by
  rw [slotsFor, h]
  rfl

/-! ### A run of fragments -/

/-- The fragments of a run, one after the other. -/
def run (self : FragParser) (fs : List Ipv4Frag) : Exec FragParser :=
  fs.foldlM (fun s f => do let x ← s.process f; pure x.2) self

theorem run_append {s s₁ : FragParser} {pre fs : List Ipv4Frag} (h : s.run pre = .ok s₁) :
    s.run (pre ++ fs) = s₁.run fs := by
  rw [run, List.foldlM_append]
  rw [run] at h
  rw [h]
  rfl

theorem run_snoc {s s₁ s₂ : FragParser} {pre : List Ipv4Frag} {f : Ipv4Frag} {r : Option Packet}
    (h : s.run pre = .ok s₁) (hf : s₁.process f = .ok (r, s₂)) :
    s.run (pre ++ [f]) = .ok s₂ := by
  rw [run_append h, run, List.foldlM_cons, hf]
  rfl

theorem ListsAll.run {q : FragParserKey → Slots → Prop} {s s' : FragParser} (h : ListsAll q s)
    {fs : List Ipv4Frag}
    (hnew : ∀ f ∈ fs, q f.item.key (List.replicate f.item.totalPart.toNat none))
    (hset : ∀ f ∈ fs, ∀ t : FragParser, q f.item.key (t.slotsFor f.item) →
      f.item.part.toNat < (t.slotsFor f.item).length → ¬ Full (t.stored f.item) →
        q f.item.key (t.stored f.item))
    (hs : s.run fs = .ok s') : ListsAll q s' := by
  induction fs generalizing s with
  | nil => cases hs; exact h
  | cons f fs ih =>
    rw [FragParser.run, List.foldlM_cons, bind_eq_ok] at hs
    obtain ⟨t, ht, hs⟩ := hs
    obtain ⟨x, hx, ht⟩ := bind_eq_ok.mp ht
    cases ht
    have h' := h.process (hnew f (by simp)) (hset f (by simp) s) hx
    exact ih h' (fun g hg => hnew g (by simp [hg])) (fun g hg => hset g (by simp [hg])) hs

theorem SlotsAll.run {p : FragItem → Prop} {s s' : FragParser} (h : SlotsAll p s)
    {fs : List Ipv4Frag} (hf : ∀ f ∈ fs, p f.item) (hs : s.run fs = .ok s') : SlotsAll p s' :=
  ListsAll.run h (fun _ _ => all_of_empty _)
    (fun f hfm _ hold _ _ => all_set hold (hf f hfm) _) hs

/-- Part `j` of key `k` occurs in `fs`. -/
def SeenIn (k : FragParserKey) (fs : List Ipv4Frag) (j : Nat) : Prop :=
  ∃ f ∈ fs, f.item.key = k ∧ f.item.part.toNat = j

instance (k : FragParserKey) (fs : List Ipv4Frag) (j : Nat) : Decidable (SeenIn k fs j) :=
  inferInstanceAs (Decidable (∃ f ∈ fs, _))

/-- Every part of `p` occurs in `fs`. -/
def AllSeen (p : Packet) (m : Nat) (k : FragParserKey) (fs : List Ipv4Frag) : Prop :=
  ∀ j < pieces m p, SeenIn k fs j

instance (p : Packet) (m : Nat) (k : FragParserKey) (fs : List Ipv4Frag) :
    Decidable (AllSeen p m k fs) :=
  inferInstanceAs (Decidable (∀ j < pieces m p, SeenIn k fs j))

theorem seenIn_snoc {k : FragParserKey} {fs : List Ipv4Frag} {f : Ipv4Frag} {j : Nat} :
    SeenIn k (fs ++ [f]) j ↔ SeenIn k fs j ∨ (f.item.key = k ∧ f.item.part.toNat = j) := by
  simp only [SeenIn, List.mem_append, List.mem_singleton]
  constructor
  · rintro ⟨g, hg | rfl, h⟩
    · exact .inl ⟨g, hg, h⟩
    · exact .inr h
  · rintro (⟨g, hg, h⟩ | h)
    · exact ⟨g, .inl hg, h⟩
    · exact ⟨f, .inr rfl, h⟩

theorem AllSeen.snoc {p : Packet} {m : Nat} {k : FragParserKey} {fs : List Ipv4Frag}
    (h : AllSeen p m k fs) (f : Ipv4Frag) : AllSeen p m k (fs ++ [f]) :=
  fun j hj => seenIn_snoc.mpr (.inl (h j hj))

/-- The keys of the fragments after the last one of `k`. -/
def since (k : FragParserKey) (fs : List Ipv4Frag) : Finset FragParserKey :=
  ((fs.reverse.takeWhile fun f => decide (f.item.key ≠ k)).map fun f => f.item.key).toFinset

theorem since_snoc_self {k : FragParserKey} {fs : List Ipv4Frag} {f : Ipv4Frag}
    (h : f.item.key = k) : since k (fs ++ [f]) = ∅ := by
  simp [since, h]

theorem since_snoc_of_ne {k : FragParserKey} {fs : List Ipv4Frag} {f : Ipv4Frag}
    (h : f.item.key ≠ k) : since k (fs ++ [f]) = insert f.item.key (since k fs) := by
  simp [since, h]

theorem exists_last_of_key {k : FragParserKey} {fs : List Ipv4Frag}
    (h : ∃ f ∈ fs, f.item.key = k) :
    ∃ a g mid, fs = a ++ g :: mid ∧ g.item.key = k ∧ (∀ e ∈ mid, e.item.key ≠ k) ∧
      since k fs = (mid.map fun f => f.item.key).toFinset := by
  induction fs using List.reverseRecOn with
  | nil => simp at h
  | append_singleton fs f ih =>
    by_cases hf : f.item.key = k
    · exact ⟨fs, f, [], rfl, hf, by simp, by simp [since_snoc_self hf]⟩
    · have h' : ∃ f ∈ fs, f.item.key = k := by
        obtain ⟨g, hg, hk⟩ := h
        rcases List.mem_append.mp hg with hg | hg
        · exact ⟨g, hg, hk⟩
        · rw [List.mem_singleton.mp hg] at hk
          exact absurd hk hf
      obtain ⟨a, g, mid, rfl, hg, hmid, hs⟩ := ih h'
      refine ⟨a, g, mid ++ [f], by simp, hg, ?_, ?_⟩
      · intro e he
        rcases List.mem_append.mp he with he | he
        · exact hmid e he
        · rw [List.mem_singleton.mp he]
          exact hf
      · rw [since_snoc_of_ne hf, hs]
        ext x
        simp

/-! ### The entry of one key through a run -/

/-- What is known of the entry of `k` after `pre`: there is none before the
first fragment of `k`, and afterwards it holds the parts seen, as long as it
cannot have been evicted. -/
structure Entry (p : Packet) (m : Nat) (k : FragParserKey) (pre : List Ipv4Frag)
    (s : FragParser) : Prop where
  absent : (∀ f ∈ pre, f.item.key ≠ k) → s.cache.lookup k = none
  present : (∃ f ∈ pre, f.item.key = k) → (since k pre).card < 50 →
    ∃ list, LruCache.Within (since k pre) k list s.cache ∧ Holds p m k (SeenIn k pre) list

theorem entry_nil {p : Packet} {m : Nat} {k : FragParserKey} {s : FragParser}
    (h : s.cache.lookup k = none) : Entry p m k [] s :=
  ⟨fun _ => h, fun hex => by simp at hex⟩

/-- The list a fragment of `k` is looked up in holds the parts seen. -/
theorem Entry.holds {p : Packet} {m : Nat} {k : FragParserKey} {pre : List Ipv4Frag}
    {s : FragParser} (h : Entry p m k pre s) {i : FragItem} (hi : Honest p m k i)
    (hcard : (∃ f ∈ pre, f.item.key = k) → (since k pre).card < 50) :
    Holds p m k (SeenIn k pre) (s.slotsFor i) := by
  by_cases hex : ∃ f ∈ pre, f.item.key = k
  · obtain ⟨list, hw, hh⟩ := h.present hex (hcard hex)
    rw [slotsFor_of_lookup (by rw [hi.key]; exact hw.lookup)]
    exact hh
  · have hno : ∀ f ∈ pre, f.item.key ≠ k := fun f hf hk => hex ⟨f, hf, hk⟩
    have hseen : SeenIn k pre = fun _ => False := by
      funext j
      exact eq_false fun ⟨f, hf, hk, _⟩ => hno f hf hk
    rw [hseen]
    exact holds_slotsFor_new hi (h.absent hno)

/-- A fragment of `k` that leaves a part missing adds its part to the entry. -/
theorem Entry.more {p : Packet} {m : Nat} {k : FragParserKey} {pre : List Ipv4Frag}
    {s : FragParser} (h : Entry p m k pre s) {f : Ipv4Frag} (hf : Honest p m k f.item)
    (hcard : (∃ f ∈ pre, f.item.key = k) → (since k pre).card < 50)
    (hmore : ¬ AllSeen p m k (pre ++ [f])) :
    ∃ s', s.process f = .ok (none, s') ∧ Entry p m k (pre ++ [f]) s' := by
  have hh := h.holds hf hcard
  have hseen : SeenIn k (pre ++ [f]) = fun j => SeenIn k pre j ∨ f.item.part.toNat = j := by
    funext j
    simp [seenIn_snoc, hf.key]
  rw [AllSeen, hseen] at hmore
  refine ⟨_, process_more hh hf hmore, ?_, ?_⟩
  · intro hno
    exact absurd hf.key (hno f (by simp))
  · intro _ _
    rw [since_snoc_self hf.key, hseen]
    refine ⟨s.stored f.item, ?_, hh.set hf⟩
    rw [store, hf.key]
    exact LruCache.within_put_self k _ _

/-- The fragment of `k` that leaves no part missing answers with the packet
and clears the entry. -/
theorem Entry.last {p : Packet} {m : Nat} {k : FragParserKey} {pre : List Ipv4Frag}
    {s : FragParser} (h : Entry p m k pre s) {f : Ipv4Frag} (hf : Honest p m k f.item)
    (hcard : (∃ f ∈ pre, f.item.key = k) → (since k pre).card < 50)
    (hall : AllSeen p m k (pre ++ [f])) :
    ∃ s', s.process f = .ok (some p, s') ∧ s'.cache.lookup k = none := by
  have hlast : ∀ j < pieces m p, SeenIn k pre j ∨ f.item.part.toNat = j := fun j hj =>
    (seenIn_snoc.mp (hall j hj)).imp_right And.right
  refine ⟨_, process_last (h.holds hf hcard) hf hlast, ?_⟩
  rw [forget, hf.key]
  exact LruCache.lookup_pop_self k _

theorem since_of_forall {k : FragParserKey} {fs : List Ipv4Frag}
    (h : ∀ f ∈ fs, f.item.key = k) : since k fs = ∅ := by
  induction fs using List.reverseRecOn with
  | nil => rfl
  | append_singleton fs f _ => exact since_snoc_self (h f (by simp))

/-- The entry of `k`, and only true lengths in the cache: enough for fragments
of other keys not to panic. -/
structure Tracks (p : Packet) (m : Nat) (k : FragParserKey) (pre : List Ipv4Frag)
    (s : FragParser) : Prop extends Entry p m k pre s where
  lenOk : SlotsAll FragItem.LenOk s

/-- A fragment of another key leaves the entry of `k` as it is, up to
eviction. -/
theorem process_other {k : FragParserKey} {s s' : FragParser} {f : Ipv4Frag} {r : Option Packet}
    (hk : f.item.key ≠ k) (hs : s.process f = .ok (r, s')) :
    (∀ D v, LruCache.Within D k v s.cache → (insert f.item.key D).card < 50 →
      LruCache.Within (insert f.item.key D) k v s'.cache) ∧
    (s.cache.lookup k = none → s'.cache.lookup k = none) := by
  have hput : ∀ list D v, LruCache.Within D k v s.cache → (insert f.item.key D).card < 50 →
      LruCache.Within (insert f.item.key D) k v (s.store f.item list).cache :=
    fun list D v hw hc => hw.put hk hc list
  have hnone : ∀ list, s.cache.lookup k = none → (s.store f.item list).cache.lookup k = none := by
    intro list hn
    by_contra hc
    obtain ⟨w, hw⟩ := Option.ne_none_iff_exists'.mp hc
    rw [LruCache.lookup_put_of_ne (Ne.symm hk) hw] at hn
    cases hn
  obtain ⟨_, _, rfl⟩ | ⟨_, _, _, rfl⟩ | ⟨_, _, _, rfl⟩ := process_cases hs
  · exact ⟨hput _, hnone _⟩
  · exact ⟨hput _, hnone _⟩
  · refine ⟨fun D v hw hc => (hput _ D v hw hc).pop hk, ?_⟩
    intro hn
    rw [forget, LruCache.lookup_pop_of_ne (Ne.symm hk)]
    exact hnone _ hn

/-- Where lengths are true it does not panic, either. -/
theorem Tracks.other {p : Packet} {m : Nat} {k : FragParserKey} {pre : List Ipv4Frag}
    {s : FragParser} (h : Tracks p m k pre s) {f : Ipv4Frag} (hk : f.item.key ≠ k)
    (hf : f.item.LenOk) : ∃ r s', s.process f = .ok (r, s') ∧ Tracks p m k (pre ++ [f]) s' := by
  obtain ⟨⟨r, s'⟩, hs⟩ := (process_ok_iff s f).mpr (not_trips h.lenOk hf)
  have hkeep := process_other hk hs
  refine ⟨r, s', hs, ⟨?_, ?_⟩, h.lenOk.process hf hs⟩
  · intro hpre
    exact hkeep.2 (h.absent fun g hg => hpre g (by simp [hg]))
  · intro hex hcard
    rw [since_snoc_of_ne hk] at hcard ⊢
    have hex' : ∃ g ∈ pre, g.item.key = k := by
      obtain ⟨g, hg, hgk⟩ := hex
      rcases List.mem_append.mp hg with hg | hg
      · exact ⟨g, hg, hgk⟩
      · rw [List.mem_singleton.mp hg] at hgk
        exact absurd hgk hk
    have hsub : (since k pre).card < 50 :=
      Nat.lt_of_le_of_lt (Finset.card_le_card (Finset.subset_insert _ _)) hcard
    obtain ⟨list, hw, hh⟩ := h.present hex' hsub
    refine ⟨list, hkeep.1 _ _ hw hcard, ?_⟩
    have : SeenIn k (pre ++ [f]) = SeenIn k pre := by
      funext j
      simp [seenIn_snoc, hk]
    rw [this]
    exact hh

/-- The frames of one packet among frames of other keys, as a sender and the
other senders may interleave them. -/
structure Interleaved (p : Packet) (m : Nat) (k : FragParserKey) (fs : List Ipv4Frag) : Prop where
  honest : ∀ f ∈ fs, f.item.key = k → Honest p m k f.item
  others : ∀ f ∈ fs, f.item.key ≠ k → f.item.LenOk
  few : ∀ a f mid g b, fs = a ++ f :: (mid ++ g :: b) → f.item.key = k → g.item.key = k →
    (∀ e ∈ mid, e.item.key ≠ k) → (mid.map fun e => e.item.key).toFinset.card < 50

theorem interleaved_of_length {p : Packet} {m : Nat} {k : FragParserKey} {fs : List Ipv4Frag}
    (honest : ∀ f ∈ fs, f.item.key = k → Honest p m k f.item)
    (others : ∀ f ∈ fs, f.item.key ≠ k → f.item.LenOk) (h : fs.length < 50) :
    Interleaved p m k fs where
  honest := honest
  others := others
  few a f mid g b hfs _ _ _ := by
    have hcard := List.toFinset_card_le (mid.map fun e => e.item.key)
    rw [hfs, List.length_append, List.length_cons, List.length_append] at h
    rw [List.length_map] at hcard
    omega

theorem Interleaved.card_since {p : Packet} {m : Nat} {k : FragParserKey}
    {fs pre post : List Ipv4Frag} {f : Ipv4Frag} (h : Interleaved p m k fs)
    (hfs : fs = pre ++ f :: post) (hf : f.item.key = k) (hex : ∃ g ∈ pre, g.item.key = k) :
    (since k pre).card < 50 := by
  obtain ⟨a, g, mid, rfl, hg, hmid, hs⟩ := exists_last_of_key hex
  rw [hs]
  exact h.few a g mid f post (by rw [hfs]; simp) hg hf hmid

/-- **Up to the first fragment that leaves no part missing, the run returns and
the entry is tracked.** -/
theorem Interleaved.tracks {p : Packet} {m : Nat} {k : FragParserKey} {s : FragParser}
    (hlen : SlotsAll FragItem.LenOk s) (hk : s.cache.lookup k = none) {fs : List Ipv4Frag}
    (h : Interleaved p m k fs) (pre : List Ipv4Frag) :
    ∀ post, fs = pre ++ post → ¬ AllSeen p m k pre →
      ∃ s₁, s.run pre = .ok s₁ ∧ Tracks p m k pre s₁ := by
  induction pre using List.reverseRecOn with
  | nil =>
    intro post _ _
    exact ⟨s, rfl, entry_nil hk, hlen⟩
  | append_singleton pre f ih =>
    intro post hfs hnot
    have hfs' : fs = pre ++ f :: post := by rw [hfs]; simp
    obtain ⟨s₁, hs₁, ht⟩ := ih (f :: post) hfs' fun hall => hnot (hall.snoc f)
    have hmem : f ∈ fs := by rw [hfs']; simp
    by_cases hf : f.item.key = k
    · have hi := h.honest f hmem hf
      obtain ⟨s₂, hs₂, he⟩ := ht.more hi (h.card_since hfs' hf) hnot
      exact ⟨s₂, run_snoc hs₁ hs₂, he, ht.lenOk.process hi.len hs₂⟩
    · obtain ⟨r, s₂, hs₂, ht₂⟩ := ht.other hf (h.others f hmem hf)
      exact ⟨s₂, run_snoc hs₁ hs₂, ht₂⟩

/-- A state the reassembler reaches on fragments whose `len` is the size of
their data. -/
def LenOkReachable (s : FragParser) : Prop :=
  ∃ fs : List Ipv4Frag, (∀ f ∈ fs, f.item.LenOk) ∧ new.run fs = .ok s

/-- **Reassembly is correct for honest senders.**  Whatever is in the cache, up
to the first fragment of `k` at which all parts of `p` have been seen no call
panics and every fragment of `k` is answered with nothing; that one is answered
with `p`, and leaves no entry behind. -/
theorem reassembles {p : Packet} {m : Nat} {k : FragParserKey} {s : FragParser}
    (hs : LenOkReachable s) (hk : s.cache.lookup k = none) {fs : List Ipv4Frag}
    (h : Interleaved p m k fs) :
    ∀ pre f post, fs = pre ++ f :: post → f.item.key = k → ¬ AllSeen p m k pre →
      ∃ s₁ r s₂, s.run pre = .ok s₁ ∧ s₁.process f = .ok (r, s₂) ∧
        (AllSeen p m k (pre ++ [f]) → r = some p ∧ s₂.cache.lookup k = none) ∧
        (¬ AllSeen p m k (pre ++ [f]) → r = none) := by
  intro pre f post hfs hf hnot
  obtain ⟨fs₀, hfs₀, hrun⟩ := hs
  obtain ⟨s₁, hs₁, ht⟩ := h.tracks ((slotsAll_new _).run hfs₀ hrun) hk pre (f :: post) hfs hnot
  have hi : Honest p m k f.item := h.honest f (by rw [hfs]; simp) hf
  have hcard := h.card_since hfs hf
  by_cases hall : AllSeen p m k (pre ++ [f])
  · obtain ⟨s₂, hs₂, hgone⟩ := ht.last hi hcard hall
    exact ⟨s₁, _, s₂, hs₁, hs₂, fun _ => ⟨rfl, hgone⟩, fun hn => absurd hall hn⟩
  · obtain ⟨s₂, hs₂, _⟩ := ht.more hi hcard hall
    exact ⟨s₁, _, s₂, hs₁, hs₂, fun hn => absurd hn hall, fun _ => rfl⟩

/-- The two halves of a packet of five bytes, as two datagrams carry them. -/
def firstHalf : Ipv4Frag :=
  ⟨[10, 13, 37, 100, 10, 13, 37, 101, 0, 1, 0, 2, 0, 3, 0, 3, 0, 1, 2], by decide⟩

def secondHalf : Ipv4Frag :=
  ⟨[10, 13, 37, 100, 10, 13, 37, 101, 0, 1, 1, 2, 0, 2, 0, 3, 3, 4], by decide⟩

/-- A fragment of another client. -/
def othersHalf : Ipv4Frag :=
  ⟨[10, 13, 37, 102, 10, 13, 37, 101, 0, 1, 0, 2, 0, 3, 0, 3, 0, 1, 2], by decide⟩

/-- The second half comes first and is sent twice. -/
def halves : List Ipv4Frag := [secondHalf, othersHalf, secondHalf, firstHalf]

theorem interleaved_halves : Interleaved [0, 1, 2, 3, 4] 3 (⟨10, 13, 37, 100⟩, 1) halves := by
  have hfirst : Honest [0, 1, 2, 3, 4] 3 (⟨10, 13, 37, 100⟩, 1) firstHalf.item :=
    ⟨by decide, by decide, by decide, by decide, by decide, by decide⟩
  have hsecond : Honest [0, 1, 2, 3, 4] 3 (⟨10, 13, 37, 100⟩, 1) secondHalf.item :=
    ⟨by decide, by decide, by decide, by decide, by decide, by decide⟩
  refine interleaved_of_length ?_ (by decide) (by decide)
  intro f hf hk
  simp only [halves, List.mem_cons, List.not_mem_nil, or_false] at hf
  rcases hf with rfl | rfl | rfl | rfl
  · exact hsecond
  · exact absurd hk (by decide)
  · exact hsecond
  · exact hfirst

theorem reassembles_halves :
    ∃ s₁ s₂, new.run [secondHalf, othersHalf, secondHalf] = .ok s₁ ∧
      s₁.process firstHalf = .ok (some [0, 1, 2, 3, 4], s₂) ∧
      s₂.cache.lookup (⟨10, 13, 37, 100⟩, 1) = none := by
  have hnot : ¬ AllSeen [0, 1, 2, 3, 4] 3 (⟨10, 13, 37, 100⟩, 1)
      [secondHalf, othersHalf, secondHalf] := by decide
  have hall : AllSeen [0, 1, 2, 3, 4] 3 (⟨10, 13, 37, 100⟩, 1)
      ([secondHalf, othersHalf, secondHalf] ++ [firstHalf]) := by decide
  obtain ⟨s₁, r, s₂, hrun, hproc, hdone, _⟩ := reassembles (s := new) ⟨[], by simp, rfl⟩ rfl
    interleaved_halves [secondHalf, othersHalf, secondHalf] firstHalf [] rfl (by decide) hnot
  obtain ⟨rfl, hgone⟩ := hdone hall
  exact ⟨s₁, s₂, hrun, hproc, hgone⟩

end FragParser

end SlpServer
