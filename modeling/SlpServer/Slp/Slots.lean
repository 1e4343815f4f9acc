import SlpServer.Lib.Pieces
import SlpServer.Slp.Reassembly

/-!
# What the reassembler puts together

A slot list belongs to a key, and slot `j` of it holds a fragment of that key
with part number `j` (`Placed`).  Nothing else about the fragments of a list is
compared, which is where three things go wrong:

* each fragment is copied to where its own `pmtu` puts it, so a packet may have
  gaps and overlaps (`gapless_iff`);
* the fragments of a list may be for different destinations, and may disagree
  on how many there are (`unmixed_iff`);
* a list is made before the part number is looked at, so a fragment that is
  dropped may still cost another list its place (`rejected_iff`).
-/

namespace SlpServer

open Rust Pieces

/-- The position is in the range the fragment claims. -/
def FragItem.Covers (i : FragItem) (x : Nat) : Prop := i.start ≤ x ∧ x < i.start + i.len.toNat

namespace FragParser

/-! ### Where a fragment is -/

theorem getElem?_empty {n j : Nat} {i : FragItem} :
    (List.replicate n (none : Option FragItem))[j]? ≠ some (some i) := by
  rw [List.getElem?_replicate]
  split <;> simp

theorem eq_or_of_getElem?_set {list : Slots} {n j : Nat} {i i' : FragItem}
    (h : (list.set n (some i))[j]? = some (some i')) :
    (n = j ∧ i = i') ∨ list[j]? = some (some i') := by
  rw [List.getElem?_set] at h
  split at h
  · split at h
    · cases h
      exact .inl ⟨by assumption, rfl⟩
    · cases h
  · exact .inr h

/-- Slot `j` under key `k` holds part `j` of a packet of `k`. -/
def Placed (k : FragParserKey) (list : Slots) : Prop :=
  ∀ (j : Nat) (i : FragItem), list[j]? = some (some i) → i.key = k ∧ i.part.toNat = j

theorem placed_new (k : FragParserKey) (n : Nat) : Placed k (List.replicate n none) := by
  intro j i h
  exact absurd h getElem?_empty

theorem Placed.set {k : FragParserKey} {list : Slots} (h : Placed k list) {i : FragItem}
    (hk : i.key = k) : Placed k (list.set i.part.toNat (some i)) := by
  intro j i' hj
  rcases eq_or_of_getElem?_set hj with ⟨hpart, rfl⟩ | hj
  · exact ⟨hk, hpart⟩
  · exact h j i' hj

/-- **Every fragment in the cache is in the slot of its part**, under its key. -/
theorem placed_of_run {fs : List Ipv4Frag} {s : FragParser} (h : new.run fs = .ok s) :
    ListsAll Placed s :=
  (listsAll_new Placed).run (fun _ _ => placed_new _ _) (fun _ _ _ hq _ _ => hq.set rfl) h

theorem getElem?_contents {list : Slots} (h : Full list) {j : Nat} {i : FragItem} :
    (contents list)[j]? = some i ↔ list[j]? = some (some i) := by
  conv_rhs => rw [← map_some_contents h]
  rw [List.getElem?_map]
  cases (contents list)[j]? <;> simp

theorem length_contents {list : Slots} (h : Full list) : (contents list).length = list.length := by
  conv_rhs => rw [← map_some_contents h]
  rw [List.length_map]

/-! ### Completing a packet -/

/-- A fragment that is answered with a packet fills the last slot of its
list, and the packet is what copying the list gives. -/
theorem process_some {s s' : FragParser} {f : Ipv4Frag} {packet : Packet}
    (h : s.process f = .ok (some packet, s')) :
    f.item.part.toNat < (s.slotsFor f.item).length ∧ Full (s.stored f.item) ∧
      assembleAll (contents (s.stored f.item)) = .ok (some packet) := by
  obtain ⟨_, hr, _⟩ | ⟨_, _, hr, _⟩ | ⟨hp, hf, hr, _⟩ := process_cases h
  · cases hr
  · cases hr
  · exact ⟨hp, hf, hr⟩

theorem getElem?_stored {s : FragParser} {i i' : FragItem} {j : Nat}
    (hp : i.part.toNat < (s.slotsFor i).length) : (s.stored i)[j]? = some (some i') ↔
      (j = i.part.toNat ∧ i' = i) ∨
        (j ≠ i.part.toNat ∧ (s.slotsFor i)[j]? = some (some i')) := by
  rw [stored, List.getElem?_set]
  by_cases hj : i.part.toNat = j
  · rw [if_pos hj, if_pos hp]
    simp [hj.symm, eq_comm]
  · rw [if_neg hj]
    simp [Ne.symm hj]

/-- The parts of the packet that a fragment completes: it, and those in the
other slots. -/
theorem mem_contents_stored {s : FragParser} {i i' : FragItem}
    (hp : i.part.toNat < (s.slotsFor i).length) (hfull : Full (s.stored i)) :
    i' ∈ contents (s.stored i) ↔ i' = i ∨
      ∃ j, j ≠ i.part.toNat ∧ (s.slotsFor i)[j]? = some (some i') := by
  rw [List.mem_iff_getElem?]
  simp only [getElem?_contents hfull, getElem?_stored hp]
  constructor
  · rintro ⟨j, ⟨_, hi⟩ | h⟩
    · exact .inl hi
    · exact .inr ⟨j, h⟩
  · rintro (hi | ⟨j, h⟩)
    · exact ⟨_, .inl ⟨rfl, hi⟩⟩
    · exact ⟨j, .inr h⟩

/-! ### Fragments of different packets -/

/-- The fragments are those of one packet, as many as they say. -/
def Unmixed (parts : List FragItem) : Prop :=
  (∀ i ∈ parts, ∀ i' ∈ parts, i.srcIp = i'.srcIp ∧ i.id = i'.id ∧ i.dstIp = i'.dstIp ∧
    i.totalPart = i'.totalPart) ∧ ∀ i ∈ parts, parts.length = i.totalPart.toNat

/-- The list a fragment is looked up in is of the length it says, and the
fragments in the other slots are for its destination and say the same. -/
def Suits (s : FragParser) (i : FragItem) : Prop :=
  (s.slotsFor i).length = i.totalPart.toNat ∧
    ∀ (j : Nat) (i' : FragItem), (s.slotsFor i)[j]? = some (some i') → j ≠ i.part.toNat →
      i'.dstIp = i.dstIp ∧ i'.totalPart = i.totalPart

theorem unmixed_contents_iff {s : FragParser} (hs : ListsAll Placed s) {i : FragItem}
    (hp : i.part.toNat < (s.slotsFor i).length) (hfull : Full (s.stored i)) :
    Unmixed (contents (s.stored i)) ↔ s.Suits i := by
  have hlen : (contents (s.stored i)).length = (s.slotsFor i).length := by
    rw [length_contents hfull, stored, List.length_set]
  constructor
  · rintro ⟨hall, htotal⟩
    have hself := (mem_contents_stored hp hfull).mpr (.inl rfl)
    refine ⟨hlen.symm.trans (htotal _ hself), ?_⟩
    intro j i' hj hne
    obtain ⟨_, _, hdst, htot⟩ :=
      hall i' ((mem_contents_stored hp hfull).mpr (.inr ⟨j, hne, hj⟩)) _ hself
    exact ⟨hdst, htot⟩
  · rintro ⟨htotal, hothers⟩
    have hsame : ∀ i' ∈ contents (s.stored i), i'.srcIp = i.srcIp ∧ i'.id = i.id ∧
        i'.dstIp = i.dstIp ∧ i'.totalPart = i.totalPart := by
      intro i' hi'
      rcases (mem_contents_stored hp hfull).mp hi' with rfl | ⟨j, hne, hj⟩
      · exact ⟨rfl, rfl, rfl, rfl⟩
      · have hkey := (hs.slotsFor (placed_new _ _) j i' hj).1
        obtain ⟨hdst, htot⟩ := hothers j i' hj hne
        exact ⟨congrArg Prod.fst hkey, congrArg Prod.snd hkey, hdst, htot⟩
    constructor
    · intro i₁ h₁ i₂ h₂
      obtain ⟨hsrc, hid, hdst, htot⟩ := hsame i₁ h₁
      obtain ⟨hsrc', hid', hdst', htot'⟩ := hsame i₂ h₂
      exact ⟨hsrc.trans hsrc'.symm, hid.trans hid'.symm, hdst.trans hdst'.symm,
        htot.trans htot'.symm⟩
    · intro i' hi'
      rw [hlen, htotal, (hsame i' hi').2.2.2]

/-- The destination and the number of parts are those of `i`. -/
def SameHeader (i i' : FragItem) : Prop := i'.dstIp = i.dstIp ∧ i'.totalPart = i.totalPart

/-- A list of the key of `i` is of its length and holds only fragments like it. -/
def Like (i : FragItem) (k : FragParserKey) (list : Slots) : Prop :=
  k = i.key → list.length = i.totalPart.toNat ∧
    ∀ (j : Nat) (i' : FragItem), list[j]? = some (some i') → SameHeader i i'

theorem like_new {i i' : FragItem} (h : i'.key = i.key → SameHeader i i') :
    Like i i'.key (List.replicate i'.totalPart.toNat none) := by
  intro hk
  refine ⟨by rw [List.length_replicate, (h hk).2], ?_⟩
  intro j o ho
  exact absurd ho getElem?_empty

theorem Like.set {i i' : FragItem} {list : Slots} (h : i'.key = i.key → SameHeader i i')
    (hl : Like i i'.key list) : Like i i'.key (list.set i'.part.toNat (some i')) := by
  intro hk
  obtain ⟨hlen, hall⟩ := hl hk
  refine ⟨by rw [List.length_set, hlen], ?_⟩
  intro j o ho
  rcases eq_or_of_getElem?_set ho with ⟨_, rfl⟩ | ho
  · exact h hk
  · exact hall j o ho

/-- A fragment suits its list if all fragments of its key are like it. -/
theorem suits_of_forall {fs : List Ipv4Frag} {s : FragParser} (hs : new.run fs = .ok s)
    {i : FragItem} (h : ∀ g ∈ fs, g.item.key = i.key → SameHeader i g.item) : s.Suits i := by
  have hlike : ListsAll (Like i) s := (listsAll_new (Like i)).run
    (fun g hg => like_new (h g hg)) (fun g hg _ hq _ _ => hq.set (h g hg)) hs
  obtain ⟨hlen, hall⟩ := hlike.slotsFor (like_new fun _ => ⟨rfl, rfl⟩) rfl
  exact ⟨hlen, fun j i' hj _ => hall j i' hj⟩

/-- **Which packets are put together from one packet's fragments**: those whose
last fragment suits the list it completes.  It does if all fragments of its key
are like it. -/
theorem unmixed_iff {fs : List Ipv4Frag} {s s' : FragParser} {f : Ipv4Frag} {packet : Packet}
    (hs : new.run fs = .ok s) (hpacket : s.process f = .ok (some packet, s')) :
    assembleAll (contents (s.stored f.item)) = .ok (some packet) ∧
    (Unmixed (contents (s.stored f.item)) ↔ s.Suits f.item) ∧
    ((∀ g ∈ fs, g.item.key = f.item.key → SameHeader f.item g.item) →
      Unmixed (contents (s.stored f.item))) := by
  obtain ⟨hp, hfull, hall⟩ := process_some hpacket
  have hiff := unmixed_contents_iff (placed_of_run hs) hp hfull
  exact ⟨hall, hiff, fun hagree => hiff.mpr (suits_of_forall hs hagree)⟩

theorem run_firstHalf :
    new.run [firstHalf] = .ok (new.store firstHalf.item [some firstHalf.item, none]) := rfl

theorem process_secondHalf : (new.store firstHalf.item [some firstHalf.item, none]).process
    secondHalf = .ok (some [0, 1, 2, 3, 4], new) := rfl

theorem unmixed_halves : Unmixed [firstHalf.item, secondHalf.item] := by
  refine (unmixed_iff run_firstHalf process_secondHalf).2.2 ?_
  intro g hg _
  rw [List.mem_singleton.mp hg]
  exact ⟨rfl, rfl⟩

/-- The second half of a packet for someone else, and of three parts. -/
def strangersHalf : Ipv4Frag :=
  ⟨[10, 13, 37, 100, 10, 13, 37, 102, 0, 1, 1, 3, 0, 2, 0, 3, 3, 4], by decide⟩

theorem mixes_destinations : ¬ ∀ (fs : List Ipv4Frag) (s s' : FragParser) (f : Ipv4Frag)
    (packet : Packet), new.run fs = .ok s → s.process f = .ok (some packet, s') →
      Unmixed (contents (s.stored f.item)) := by
  intro h
  have hmixed := h [firstHalf] (new.store firstHalf.item [some firstHalf.item, none]) new
    strangersHalf [0, 1, 2, 3, 4] rfl rfl
  have hfirst : firstHalf.item ∈ contents ((new.store firstHalf.item
      [some firstHalf.item, none]).stored strangersHalf.item) := List.mem_of_getElem? (i := 0) rfl
  have hlast : strangersHalf.item ∈ contents ((new.store firstHalf.item
      [some firstHalf.item, none]).stored strangersHalf.item) := List.mem_of_getElem? (i := 1) rfl
  have hdst := (hmixed.1 _ hfirst _ hlast).2.2.1
  exact absurd hdst (by decide)

/-! ### Gaps and overlaps -/

/-- What the fragment writes, and where. -/
def piece (i : FragItem) : Piece UInt8 := ⟨i.start, i.data⟩

/-- No position lies in the ranges of two parts. -/
def NoOverlap (parts : List FragItem) : Prop :=
  parts.Pairwise fun i i' => ∀ x, ¬ (i.Covers x ∧ i'.Covers x)

/-- The packet is its parts end to end: no byte of it is filler, and none is
written by two parts. -/
structure Gapless (parts : List FragItem) (packet : Packet) : Prop where
  concat : packet = (parts.map FragItem.data).flatten
  covered : ∀ x < packet.length, ∃ i ∈ parts, i.Covers x
  once : NoOverlap parts

/-- The parts end to end have the data of `i` where it starts. -/
def Agrees (parts : List FragItem) (i : FragItem) : Prop :=
  (((parts.map FragItem.data).flatten).drop i.start).take i.data.length = i.data

/-- Copying that succeeds is placing pieces inside the packet, each of its
claimed length. -/
theorem assemble_eq_some {list : List FragItem} {buffer packet : Packet}
    (h : assemble list buffer = .ok (some packet)) :
    (∀ i ∈ list, i.LenOk) ∧ Inside buffer.length (list.map piece) ∧
      packet = place (list.map piece) buffer := by
  induction list generalizing buffer with
  | nil =>
    cases h
    exact ⟨nofun, nofun, rfl⟩
  | cons i list ih =>
    by_cases hin : i.start + i.len.toNat ≤ buffer.length
    · by_cases hlen : i.LenOk
      · rw [assemble_cons hin hlen] at h
        obtain ⟨hall, hinside, hp⟩ := ih h
        rw [hlen] at hin
        rw [length_writeRange hin] at hinside
        refine ⟨?_, ?_, hp⟩
        · intro j hj
          rcases List.mem_cons.mp hj with rfl | hj
          · exact hlen
          · exact hall j hj
        · intro p hp
          rcases List.mem_cons.mp hp with rfl | hp
          · exact hin
          · exact hinside p hp
      · rw [assemble_cons_clash hin hlen] at h
        cases h
    · rw [assemble_cons_outside (by omega)] at h
      cases h

theorem concat_piece (parts : List FragItem) :
    Pieces.concat (parts.map piece) = (parts.map FragItem.data).flatten := by
  rw [Pieces.concat, List.map_map]
  rfl

theorem covers_piece_iff {i : FragItem} (h : i.LenOk) (x : Nat) :
    (piece i).Covers x ↔ i.Covers x := by
  rw [FragItem.Covers, h]
  rfl

theorem apart_piece_iff {parts : List FragItem} (h : ∀ i ∈ parts, i.LenOk) :
    Apart (parts.map piece) ↔ NoOverlap parts := by
  rw [Apart, List.pairwise_map]
  apply List.Pairwise.iff_of_mem
  intro i i' hi hi'
  simp only [covers_piece_iff (h i hi), covers_piece_iff (h i' hi')]

theorem length_concat_piece {parts : List FragItem} (h : ∀ i ∈ parts, i.LenOk) :
    (Pieces.concat (parts.map piece)).length = size parts := by
  rw [length_concat, size_eq_sum, List.map_map]
  exact congrArg List.sum (List.map_congr_left fun i hi => (h i hi).symm)

/-- When the packet is its parts end to end: if they do not overlap, and
each agrees with them at its offset. -/
theorem gapless_of_assembled {parts : List FragItem} {packet : Packet}
    (h : assembleAll parts = .ok (some packet)) :
    Gapless parts packet ↔ NoOverlap parts ∧ ∀ i ∈ parts, Agrees parts i := by
  obtain ⟨hlen, hinside, hpacket⟩ := assemble_eq_some h
  have hsize := (length_concat_piece hlen).trans (List.length_replicate (a := (0 : UInt8))).symm
  have hagree : (∀ p ∈ parts.map piece,
      ((Pieces.concat (parts.map piece)).drop p.start).take p.data.length = p.data) ↔
      ∀ i ∈ parts, Agrees parts i := by
    rw [concat_piece]
    exact List.forall_mem_map
  constructor
  · intro hg
    refine ⟨hg.once, ?_⟩
    rw [← hagree, ← place_eq_concat_iff hinside ((apart_piece_iff hlen).mpr hg.once) hsize,
      ← hpacket, concat_piece]
    exact hg.concat
  · rintro ⟨honce, hall⟩
    have hapart := (apart_piece_iff hlen).mpr honce
    refine ⟨?_, ?_, honce⟩
    · rw [hpacket, ← concat_piece]
      exact (place_eq_concat_iff hinside hapart hsize).mpr (hagree.mpr hall)
    · intro x hx
      rw [hpacket, length_place hinside] at hx
      obtain ⟨p, hp, hc⟩ := covered_of_apart hinside hapart (by rw [← length_concat, hsize]) hx
      obtain ⟨i, hi, rfl⟩ := List.mem_map.mp hp
      exact ⟨i, hi, (covers_piece_iff (hlen i hi) x).mp hc⟩

/-- Parts that each start where the ones before end make up a packet. -/
theorem gapless_of_inPlace {parts : List FragItem} {packet : Packet}
    (h : assembleAll parts = .ok (some packet)) (hplace : InPlace 0 (parts.map piece)) :
    Gapless parts packet := by
  obtain ⟨hlen, _, _⟩ := assemble_eq_some h
  refine (gapless_of_assembled h).mpr ⟨(apart_piece_iff hlen).mp hplace.apart, ?_⟩
  intro i hi
  have hagree := @InPlace.agrees _ _ [] hplace _ (List.mem_map_of_mem hi)
  rw [List.nil_append, concat_piece] at hagree
  exact hagree

/-- **Which reassembled packets have no gaps and no overlaps.**  The parts are
those of the list the last fragment completes, in order; the packet is what
they are end to end exactly when no two of them overlap and each agrees with
that at its own offset, as they do when each starts where the ones before end. -/
theorem gapless_iff {fs : List Ipv4Frag} {s s' : FragParser} {f : Ipv4Frag} {packet : Packet}
    (hs : new.run fs = .ok s) (hpacket : s.process f = .ok (some packet, s')) :
    let parts := contents (s.stored f.item)
    (∀ (j : Nat) (i : FragItem), parts[j]? = some i → i.key = f.item.key ∧ i.part.toNat = j) ∧
    (Gapless parts packet ↔ NoOverlap parts ∧ ∀ i ∈ parts, Agrees parts i) ∧
    (InPlace 0 (parts.map piece) → Gapless parts packet) := by
  intro parts
  obtain ⟨_, hfull, hall⟩ := process_some hpacket
  refine ⟨?_, gapless_of_assembled hall, gapless_of_inPlace hall⟩
  intro j i hj
  have hplaced : Placed f.item.key (s.stored f.item) :=
    ((placed_of_run hs).slotsFor (placed_new _ _)).set rfl
  exact hplaced j i ((getElem?_contents hfull).mp hj)

theorem gapless_halves : Gapless [firstHalf.item, secondHalf.item] [0, 1, 2, 3, 4] :=
  (gapless_iff run_firstHalf process_secondHalf).2.2 ⟨fun _ => rfl, fun _ => rfl, trivial⟩

/-- The second half of a packet with a `pmtu` of 1. -/
def shiftedHalf : Ipv4Frag :=
  ⟨[10, 13, 37, 100, 10, 13, 37, 101, 0, 1, 1, 2, 0, 2, 0, 1, 3, 4], by decide⟩

/-- It overwrites two bytes of the first half and leaves two of filler. -/
theorem leaves_gap : ¬ ∀ (fs : List Ipv4Frag) (s s' : FragParser) (f : Ipv4Frag)
    (packet : Packet), new.run fs = .ok s → s.process f = .ok (some packet, s') →
      Gapless (contents (s.stored f.item)) packet := by
  intro h
  have hgapless := h [firstHalf] (new.store firstHalf.item [some firstHalf.item, none]) new
    shiftedHalf [0, 3, 4, 0, 0] rfl rfl
  exact absurd hgapless.concat (by decide)

/-! ### Rejected fragments -/

/-- The reassemblies in progress are the same. -/
def SameLists (s s' : FragParser) : Prop := ∀ k, s'.cache.lookup k = s.cache.lookup k

/-- **When a rejected fragment leaves no trace**: exactly when its key has a
slot list already. -/
theorem rejected_iff (s : FragParser) (f : Ipv4Frag)
    (hrejected : (s.slotsFor f.item).length ≤ f.item.part.toNat) :
    ∃ s', s.process f = .ok (none, s') ∧
      (SameLists s s' ↔ (s.cache.lookup f.item.key).isSome = true) := by
  refine ⟨s.store f.item (s.slotsFor f.item), ?_, ?_⟩
  · rw [process_eq, if_neg (by omega)]
  · constructor
    · intro h
      have hself := h f.item.key
      rw [store, LruCache.lookup_put_self] at hself
      rw [← hself]
      rfl
    · intro h k
      obtain ⟨list, hl⟩ := Option.isSome_iff_exists.mp h
      rw [slotsFor_of_lookup hl, store]
      exact LruCache.lookup_put_of_lookup hl k

/-- Part 10 of 2, after the first half. -/
def wrongPart : Ipv4Frag :=
  ⟨[10, 13, 37, 100, 10, 13, 37, 101, 0, 1, 10, 2, 0, 2, 0, 3, 3, 4], by decide⟩

theorem sameLists_wrongPart : ∃ s', (new.store firstHalf.item [some firstHalf.item, none]).process
    wrongPart = .ok (none, s') ∧
      SameLists (new.store firstHalf.item [some firstHalf.item, none]) s' := by
  obtain ⟨s', hs', hiff⟩ := rejected_iff (new.store firstHalf.item [some firstHalf.item, none])
    wrongPart (by decide)
  exact ⟨s', hs', hiff.mpr rfl⟩

/-- Part 0 of 0. -/
def noParts : Ipv4Frag :=
  ⟨[10, 13, 37, 100, 10, 13, 37, 101, 0, 1, 0, 0, 0, 3, 0, 3, 0, 1, 2], by decide⟩

/-- It leaves a list of no slots, in which no fragment of its key has a place. -/
theorem rejected_leaves_list : ¬ ∀ (fs : List Ipv4Frag) (s s' : FragParser) (f : Ipv4Frag),
    new.run fs = .ok s → (s.slotsFor f.item).length ≤ f.item.part.toNat →
      s.process f = .ok (none, s') → SameLists s s' := by
  intro h
  have hsame := h [] new (new.store noParts.item []) noParts rfl (by decide) rfl
  have hkey := hsame noParts.item.key
  rw [store, LruCache.lookup_put_self] at hkey
  cases hkey

end FragParser

end SlpServer
