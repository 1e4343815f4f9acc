import SlpServer.Lib.ZeroRun
import SlpServer.Plugin.LdnMitm.LanProtocol

/-!
# Compressed LDN packets

What `decompress` does to a zero-run encoding.  It tests for the end of the
buffer before it looks at whether a zero waits for its count, so the count of a
last single zero is refused once the zero itself has filled the buffer:
`Fits cs n` says which encodings go into `n` bytes, and `fits_iff` that these
are the ones whose expansion is no longer than that, a last chunk of one zero
that ends exactly at the end apart.

`decompress_sound` is about any input: an answer is the expansion of an
encoding, and what is no encoding or does not fit gets none.

`LdnPacket::new` always hands `decompress` a buffer of the exact size, so
`new_roundtrip_iff`: a packet is decoded to its payload exactly when its
encoding does not end in a chunk of one zero.  It hands over all that comes
behind the header, whatever the header declares; `delimited_iff` says when
this makes no difference.
-/

namespace SlpServer

open Rust ZeroRun

namespace LanProtocol

/-- `decompress` finds room for the chunks in `n` bytes. -/
def Fits : List Chunk → Nat → Prop
  | [], _ => True
  | .byte _ _ :: cs, n => 1 ≤ n ∧ Fits cs (n - 1)
  | .zeros c :: cs, n => 2 ≤ n ∧ c.toNat + 1 ≤ n ∧ Fits cs (n - (c.toNat + 1))

/-- The encoding ends in a chunk of one zero. -/
def EndsInSingleZero (cs : List Chunk) : Prop := cs.getLast? = some (.zeros 0)

instance (cs : List Chunk) : Decidable (EndsInSingleZero cs) :=
  inferInstanceAs (Decidable (_ = _))

theorem endsInSingleZero_cons {c : Chunk} {cs : List Chunk} (h : cs ≠ []) :
    EndsInSingleZero (c :: cs) ↔ EndsInSingleZero cs := by
  rw [EndsInSingleZero, EndsInSingleZero, List.getLast?_cons_of_ne_nil h]

/-- The room for the bytes of an encoding, and for one more behind a single zero. -/
def HasRoom (cs : List Chunk) (n : Nat) : Prop :=
  (expand cs).length ≤ n ∧ (EndsInSingleZero cs → (expand cs).length < n)

theorem hasRoom_cons {c : Chunk} {cs : List Chunk} (h : cs ≠ []) (n : Nat) :
    HasRoom (c :: cs) n ↔ c.expand.length ≤ n ∧ HasRoom cs (n - c.expand.length) := by
  have hlen : (expand (c :: cs)).length = c.expand.length + (expand cs).length := by
    rw [expand_cons, List.length_append]
  have hpos : 0 < (expand cs).length := Nat.pos_of_ne_zero fun hzero => h (expand_eq_nil hzero)
  rw [HasRoom, HasRoom, endsInSingleZero_cons h, hlen]
  by_cases he : EndsInSingleZero cs
  · simp only [he, true_imp_iff]
    omega
  · simp only [he, false_imp_iff, and_true]
    omega

/-- **Which encodings go into `n` bytes**: those that expand to at most `n`,
unless the last chunk is a single zero and they expand to exactly `n`. -/
theorem fits_iff (cs : List Chunk) (n : Nat) :
    Fits cs n ↔ (expand cs).length ≤ n ∧ (EndsInSingleZero cs → (expand cs).length < n) := by
  show Fits cs n ↔ HasRoom cs n
  induction cs generalizing n with
  | nil => simp [Fits, HasRoom, EndsInSingleZero]
  | cons c cs ih =>
    by_cases hcs : cs = []
    · subst hcs
      cases c with
      | byte b hb => simp [Fits, HasRoom, EndsInSingleZero, Chunk.expand]
      | zeros c =>
        have hzero : EndsInSingleZero [.zeros c] ↔ c.toNat = 0 := by
          rw [EndsInSingleZero, List.getLast?_singleton, Option.some.injEq, Chunk.zeros.injEq,
            ← UInt8.toNat_inj]
          rfl
        have hlen : (expand [.zeros c]).length = c.toNat + 1 := by simp [Chunk.expand]
        rw [Fits, Fits, and_true, HasRoom, hzero, hlen]
        omega
    · rw [hasRoom_cons hcs]
      cases c with
      | byte b hb =>
        rw [Fits, ih]
        rfl
      | zeros c =>
        have hlen : (Chunk.zeros c).expand.length = c.toNat + 1 := by simp [Chunk.expand]
        have hpos : 0 < (expand cs).length :=
          Nat.pos_of_ne_zero fun hzero => hcs (expand_eq_nil hzero)
        rw [Fits, ih, hlen]
        apply and_iff_right_of_imp
        rintro ⟨hle, hrest, _⟩
        omega

/-! ### Decoding chunk by chunk -/

/-- The first byte of a chunk is copied; after a zero the loop waits for its
count. -/
theorem decompressLoop_head (b : UInt8) (input done old : Packet) (o : UInt8) :
    decompressLoop (b :: input) false done.length (done ++ o :: old) =
      decompressLoop input (decide (b = 0)) (done ++ [b]).length (done ++ [b] ++ old) := by
  have hlt : done.length < (done ++ o :: old).length := by simp
  have hset : (done ++ o :: old).set done.length b = done ++ [b] ++ old := by
    rw [List.set_append_right _ _ (Nat.le_refl _), Nat.sub_self]
    simp
  rw [decompressLoop, if_neg (by omega), if_neg (by simp), setIndex_ok b hlt, ok_bind, hset,
    List.length_append]
  rfl

theorem decompressLoop_full (b : UInt8) (input done : Packet) (leadZero : Bool) :
    decompressLoop (b :: input) leadZero done.length (done ++ []) = .ok (none, done ++ []) := by
  rw [decompressLoop, if_pos (by simp)]
  rfl

/-- The rest of the zeros are written once there is room for one byte more. -/
theorem decompressLoop_count (c : UInt8) (input done : Packet) {old : Packet}
    (h1 : 1 ≤ old.length) (hc : c.toNat ≤ old.length) :
    decompressLoop (c :: input) true done.length (done ++ old) =
      decompressLoop input false (done ++ List.replicate c.toNat 0).length
        (done ++ List.replicate c.toNat 0 ++ old.drop c.toNat) := by
  have hlen : (done ++ old).length = done.length + old.length := List.length_append
  have hwrite : writeRange (done ++ old) done.length (List.replicate c.toNat 0) =
      done ++ List.replicate c.toNat 0 ++ old.drop c.toNat := by
    rw [writeRange, List.take_left, List.length_replicate, List.drop_append,
      List.drop_of_length_le (by omega), List.nil_append, Nat.add_sub_cancel_left]
  have hroom : done.length + (List.replicate c.toNat (0 : UInt8)).length ≤
      (done ++ old).length := by
    rw [List.length_replicate, hlen]
    omega
  have hswap := swapWithSlice_ok hroom
  rw [List.length_replicate] at hswap
  rw [decompressLoop, if_neg (by omega), if_pos rfl]
  simp only [if_neg (show ¬ done.length + c.toNat > (done ++ old).length by omega), hswap, ok_bind,
    hwrite]
  rw [List.length_append, List.length_replicate]

/-- The count of a run is refused without that room, be it a count of
nothing. -/
theorem decompressLoop_count_none (c : UInt8) (input done : Packet) {old : Packet}
    (h : ¬ (1 ≤ old.length ∧ c.toNat ≤ old.length)) :
    decompressLoop (c :: input) true done.length (done ++ old) = .ok (none, done ++ old) := by
  have hlen : (done ++ old).length = done.length + old.length := List.length_append
  unfold decompressLoop
  by_cases hend : done.length ≥ (done ++ old).length
  · rw [if_pos hend]
    rfl
  · rw [if_neg hend, if_pos rfl]
    simp only [if_pos (show done.length + c.toNat > (done ++ old).length by omega)]
    rfl

/-- Decoding an encoding: the buffer is written from the front, up to what
comes behind the encoding, or the decoder gives up. -/
theorem decompressLoop_encode (cs : List Chunk) (rest done old : Packet) :
    (Fits cs old.length ∧ decompressLoop (encode cs ++ rest) false done.length (done ++ old) =
      decompressLoop rest false (done ++ expand cs).length
        (done ++ expand cs ++ old.drop (expand cs).length)) ∨
    (¬ Fits cs old.length ∧ ∃ out,
      decompressLoop (encode cs ++ rest) false done.length (done ++ old) = .ok (none, out)) := by
  induction cs generalizing done old with
  | nil => exact .inl ⟨trivial, by simp⟩
  | cons c cs ih =>
    cases old with
    | nil =>
      -- the buffer is full before the chunk is looked at
      refine .inr ⟨by cases c <;> simp [Fits], done ++ [], ?_⟩
      cases c with
      | byte b hb => exact decompressLoop_full b (encode cs ++ rest) done false
      | zeros c => exact decompressLoop_full 0 (c :: (encode cs ++ rest)) done false
    | cons o old =>
      rw [encode_cons, List.append_assoc]
      cases c with
      | byte b hb =>
        rw [Chunk.encode, List.singleton_append, decompressLoop_head, decide_eq_false hb]
        obtain ⟨hfit, hrun⟩ | ⟨hfit, out, hrun⟩ := ih (done ++ [b]) old
        · refine .inl ⟨⟨by simp, by simpa using hfit⟩, ?_⟩
          rw [hrun]
          simp [Chunk.expand]
        · exact .inr ⟨fun hf => hfit (by simpa using hf.2), out, hrun⟩
      | zeros c =>
        rw [Chunk.encode, List.cons_append, decompressLoop_head, decide_eq_true rfl,
          List.singleton_append]
        by_cases hroom : 1 ≤ old.length ∧ c.toNat ≤ old.length
        · rw [decompressLoop_count c _ _ hroom.1 hroom.2]
          obtain ⟨hfit, hrun⟩ | ⟨hfit, out, hrun⟩ := ih (done ++ [0] ++ List.replicate c.toNat 0)
            (old.drop c.toNat)
          · refine .inl ⟨⟨by simp; omega, by simp; omega, by simpa using hfit⟩, ?_⟩
            rw [hrun]
            simp [Chunk.expand, List.replicate_succ]
          · exact .inr ⟨fun hf => hfit (by simpa using hf.2.2), out, hrun⟩
        · refine .inr ⟨fun hf => hroom ?_, _, decompressLoop_count_none c _ _ hroom⟩
          have h2 := hf.1
          have h3 := hf.2.1
          rw [List.length_cons] at h2 h3
          omega

theorem decompress_encode_append (cs : List Chunk) (rest output : Packet) :
    (Fits cs output.length ∧ decompress (encode cs ++ rest) output =
      decompressLoop rest false (expand cs).length
        (expand cs ++ output.drop (expand cs).length)) ∨
    (¬ Fits cs output.length ∧ ∃ out, decompress (encode cs ++ rest) output = .ok (none, out)) := by
  simpa [decompress] using decompressLoop_encode cs rest [] output

/-- When `decompress` takes an encoding. -/
theorem decompress_encode (cs : List Chunk) (output : Packet) :
    (Fits cs output.length ∧ decompress (encode cs) output =
      .ok (some (expand cs).length, expand cs ++ output.drop (expand cs).length)) ∨
    (¬ Fits cs output.length ∧ ∃ out, decompress (encode cs) output = .ok (none, out)) := by
  have h := decompress_encode_append cs [] output
  rwa [List.append_nil] at h

theorem decompress_full {cs : List Chunk} {output rest : Packet}
    (hfull : (expand cs).length = output.length) (hrest : rest ≠ []) :
    ∃ out, decompress (encode cs ++ rest) output = .ok (none, out) := by
  obtain ⟨b, rest, rfl⟩ := List.exists_cons_of_ne_nil hrest
  obtain ⟨_, hrun⟩ | ⟨_, hrun⟩ := decompress_encode_append cs (b :: rest) output
  · rw [hrun, hfull, List.drop_length, ← hfull]
    exact ⟨_, decompressLoop_full b rest (expand cs) false⟩
  · exact hrun

theorem decompress_dangling (cs : List Chunk) (output : Packet) :
    ∃ out, decompress (encode cs ++ [0]) output = .ok (none, out) := by
  obtain ⟨hfit, hrun⟩ | ⟨_, hrun⟩ := decompress_encode_append cs [0] output
  · rw [hrun]
    cases output.drop (expand cs).length with
    | nil => exact ⟨_, decompressLoop_full 0 [] (expand cs) false⟩
    | cons o old =>
      rw [decompressLoop_head]
      exact ⟨_, rfl⟩
  · exact hrun

/-- **`decompress` is sound and stays in its buffer.**  It never panics.  Where
it answers with a number of bytes, the input is an encoding, these are the
first bytes of the buffer and what the encoding expands to, and the others are
as they were; a zero without a count and an expansion that does not fit are
refused. -/
theorem decompress_sound (input output : Packet) :
    ∃ r out, decompress input output = .ok (r, out) ∧
      (∀ m, r = some m → m ≤ output.length ∧ out.length = output.length ∧
        ∃ cs, chunks input = some cs ∧ out.take m = expand cs ∧ out.drop m = output.drop m) ∧
      (chunks input = none → r = none) ∧
      ∀ cs, chunks input = some cs → output.length < (expand cs).length → r = none := by
  cases hc : chunks input with
  | none =>
    obtain ⟨cs, rfl⟩ := encode_append_zero_of_chunks hc
    obtain ⟨out, hout⟩ := decompress_dangling cs output
    exact ⟨none, out, hout, nofun, fun _ => rfl, nofun⟩
  | some cs =>
    obtain rfl := encode_of_chunks hc
    obtain ⟨hfit, hrun⟩ | ⟨hfit, out, hrun⟩ := decompress_encode cs output
    · have hle := ((fits_iff cs _).mp hfit).1
      refine ⟨_, _, hrun, ?_, nofun, ?_⟩
      · rintro m hm
        cases hm
        refine ⟨hle, ?_, cs, rfl, List.take_left, List.drop_left⟩
        rw [List.length_append, List.length_drop]
        omega
      · rintro _ ⟨⟩ hlt
        omega
    · exact ⟨none, out, hrun, nofun, nofun, fun _ _ _ => rfl⟩

/-! ### A packet and back -/

/-- The header of a compressed packet. -/
def compressedHeader (typ : UInt8) (len decompressLen : Nat) : Packet :=
  [0x00, 0x14, 0x45, 0x11, typ, 1, UInt8.ofNat len, UInt8.ofNat (len / 256),
    UInt8.ofNat decompressLen, UInt8.ofNat (decompressLen / 256), 0, 0]

theorem check_compressedHeader {typ : UInt8} {n : Nat} {input : Packet}
    (hi : input.length ≤ 65535) :
    LdnHeader.check ⟨compressedHeader typ input.length n ++ input⟩ = .ok (.ok ()) := by
  have h12 : 12 ≤ (compressedHeader typ input.length n ++ input).length := by
    simp [compressedHeader]
  have hbytes : UInt32.ofNat ((((0x11 : UInt8).toNat * 256 + (0x45 : UInt8).toNat) * 256 +
      (0x14 : UInt8).toNat) * 256 + (0x00 : UInt8).toNat) = 0x11451400 := by decide
  refine LdnHeader.check_eq_ok_iff.mpr ⟨h12, ?_, _, LdnHeader.len_ok h12, ?_⟩
  · rw [← hbytes]
    exact LdnHeader.magic_ok h12
  · show (be16 (UInt8.ofNat (input.length / 256)) (UInt8.ofNat input.length)).toNat + 12 ≤ _
    rw [be16_ofNat (Nat.lt_succ_of_le hi)]
    simp [compressedHeader]

theorem new_compressed {typ : UInt8} {n : Nat} {input : Packet} (hi : input.length ≤ 65535)
    (hn : n ≤ 65535) :
    LdnPacket.new (compressedHeader typ input.length n ++ input) = unpack typ input n := by
  rw [new_of_check (check_compressedHeader hi)]
  show (if (1 : UInt8) = 1 then unpack typ input
    (be16 (UInt8.ofNat (n / 256)) (UInt8.ofNat n)).toNat else _) = _
  rw [if_pos rfl, be16_ofNat (Nat.lt_succ_of_le hn)]

/-- **A compressed packet decodes to its payload exactly when its encoding does
not end in a chunk of one zero**, and a buffer with room for the expansion is
enough for `decompress` unless it is filled by such a chunk. -/
theorem new_roundtrip_iff (typ : UInt8) (cs : List Chunk) (hE : (encode cs).length ≤ 65535)
    (hP : (expand cs).length ≤ 65535) :
    (LdnPacket.new (compressedHeader typ (encode cs).length (expand cs).length ++ encode cs) =
      .ok (.ok ⟨typ, expand cs⟩) ↔ ¬ EndsInSingleZero cs) ∧
    ∀ output : Packet, (expand cs).length ≤ output.length →
      ((∃ n out, decompress (encode cs) output = .ok (some n, out)) ↔
        (EndsInSingleZero cs → (expand cs).length < output.length)) := by
  constructor
  · have hfits : Fits cs (List.replicate (expand cs).length (0 : UInt8)).length ↔
        ¬ EndsInSingleZero cs := by
      rw [List.length_replicate, fits_iff]
      simp
    rw [new_compressed hE hP, unpack, ← hfits]
    obtain ⟨hfit, hrun⟩ | ⟨hfit, out, hrun⟩ := decompress_encode cs
      (List.replicate (expand cs).length 0)
    · refine iff_of_true ?_ hfit
      rw [hrun]
      simp [Except.map]
    · refine iff_of_false ?_ hfit
      rw [hrun]
      simp [Except.map]
  · intro output hout
    have hfits : Fits cs output.length ↔
        (EndsInSingleZero cs → (expand cs).length < output.length) := by
      rw [fits_iff]
      exact and_iff_right hout
    rw [← hfits]
    obtain ⟨hfit, hrun⟩ | ⟨hfit, out, hrun⟩ := decompress_encode cs output
    · exact iff_of_true ⟨_, _, hrun⟩ hfit
    · refine iff_of_false ?_ hfit
      rintro ⟨n, out', h⟩
      rw [hrun] at h
      cases h

theorem new_roundtrip_five :
    LdnPacket.new (compressedHeader 1 3 5 ++ [7, 0, 3]) = .ok (.ok ⟨1, [7, 0, 0, 0, 0]⟩) :=
  (new_roundtrip_iff 1 [.byte 7 (by decide), .zeros 3] (by decide) (by decide)).1.mpr (by decide)

theorem new_roundtrip_fails :
    ¬ ∀ (typ : UInt8) (cs : List Chunk), (encode cs).length ≤ 65535 →
      (expand cs).length ≤ 65535 →
      LdnPacket.new (compressedHeader typ (encode cs).length (expand cs).length ++ encode cs) =
        .ok (.ok ⟨typ, expand cs⟩) := by
  intro h
  have hone := h 1 [.zeros 0] (by decide) (by decide)
  have hcode : LdnPacket.new (compressedHeader 1 2 1 ++ [0, 0]) =
      .ok (.error .decompressFailed) := rfl
  exact absurd (hcode.symm.trans hone) (by simp)

/-! ### Behind the declared length -/

/-- The bytes are an encoding of `n` bytes that does not end in a single zero. -/
def Fills (xs : Packet) (n : Nat) : Prop :=
  ∃ cs ∈ chunks xs, (expand cs).length = n ∧ ¬ EndsInSingleZero cs

instance (xs : Packet) (n : Nat) : Decidable (Fills xs n) :=
  inferInstanceAs (Decidable (∃ cs ∈ chunks xs, _))

theorem unpack_cases (typ : UInt8) (xs : Packet) (n : Nat) :
    (Fills xs n ∧ ∃ buf, unpack typ xs n = .ok (.ok ⟨typ, buf⟩)) ∨
    (¬ Fills xs n ∧ unpack typ xs n = .ok (.error .decompressFailed)) := by
  unfold unpack
  cases hc : chunks xs with
  | none =>
    obtain ⟨cs, rfl⟩ := encode_append_zero_of_chunks hc
    obtain ⟨out, hout⟩ := decompress_dangling cs (List.replicate n 0)
    refine .inr ⟨?_, by rw [hout]; rfl⟩
    rintro ⟨cs', hcs', _⟩
    rw [hc] at hcs'
    cases hcs'
  | some cs =>
    obtain rfl := encode_of_chunks hc
    have hfills : Fills (encode cs) n ↔ (expand cs).length = n ∧ ¬ EndsInSingleZero cs := by
      simp [Fills]
    rw [hfills]
    obtain ⟨hfit, hrun⟩ | ⟨hfit, out, hrun⟩ := decompress_encode cs (List.replicate n 0)
    · rw [fits_iff, List.length_replicate] at hfit
      rw [hrun]
      by_cases hn : (expand cs).length = n
      · refine .inl ⟨⟨hn, fun he => ?_⟩, expand cs, ?_⟩
        · have := hfit.2 he
          omega
        · simp [Except.map, hn]
      · refine .inr ⟨fun h => hn h.1, ?_⟩
        have hlen : (expand cs ++ (List.replicate n (0 : UInt8)).drop (expand cs).length).length =
            n := by
          rw [List.length_append, List.length_drop, List.length_replicate]
          omega
        have hne : ¬ some (expand cs).length =
            some (expand cs ++ (List.replicate n (0 : UInt8)).drop (expand cs).length).length := by
          rw [hlen, Option.some.injEq]
          exact hn
        simp only [Except.map, if_neg hne]
    · refine .inr ⟨?_, by rw [hrun]; rfl⟩
      rintro ⟨hn, hend⟩
      apply hfit
      rw [fits_iff, List.length_replicate]
      exact ⟨Nat.le_of_eq hn, fun he => absurd he hend⟩

theorem not_fills_append {xs rest : Packet} {n : Nat} (h : Fills xs n) (hrest : rest ≠ []) :
    ¬ Fills (xs ++ rest) n := by
  intro hall
  obtain ⟨cs, hcs, hn, _⟩ := h
  obtain rfl := encode_of_chunks hcs
  have hfull : (expand cs).length = (List.replicate n (0 : UInt8)).length := by
    rw [hn, List.length_replicate]
  obtain ⟨out, hout⟩ := decompress_full hfull hrest
  obtain ⟨_, buf, hok⟩ | ⟨hnot, _⟩ := unpack_cases 0 (encode cs ++ rest) n
  · rw [unpack, hout] at hok
    cases hok
  · exact hnot hall

theorem unpack_eq_append_iff (typ : UInt8) (xs : Packet) {rest : Packet} (n : Nat)
    (hrest : rest ≠ []) :
    unpack typ (xs ++ rest) n = unpack typ xs n ↔ ¬ Fills xs n ∧ ¬ Fills (xs ++ rest) n := by
  obtain ⟨hfill, buf, hok⟩ | ⟨hfill, herr⟩ := unpack_cases typ xs n
  · have hnot := not_fills_append hfill hrest
    obtain ⟨h, _⟩ | ⟨_, herr⟩ := unpack_cases typ (xs ++ rest) n
    · exact absurd h hnot
    · rw [hok, herr]
      exact iff_of_false nofun fun h => h.1 hfill
  · rw [herr]
    obtain ⟨h, buf, hok⟩ | ⟨h, herr'⟩ := unpack_cases typ (xs ++ rest) n
    · rw [hok]
      exact iff_of_false nofun fun hc => hc.2 h
    · rw [herr']
      exact iff_of_true rfl ⟨hfill, h⟩

theorem check_take {b : Packet} {len : UInt16} (h : LdnHeader.check ⟨b⟩ = .ok (.ok ()))
    (hlen : LdnHeader.len ⟨b⟩ = .ok len) :
    LdnHeader.check ⟨b.take (12 + len.toNat)⟩ = .ok (.ok ()) := by
  obtain ⟨h12, hmagic, len', hlen', hle⟩ := LdnHeader.check_eq_ok_iff.mp h
  rw [hlen] at hlen'
  cases hlen'
  dsimp only at h12 hle
  refine LdnHeader.check_eq_ok_iff.mpr ⟨?_, ?_, len, ?_, ?_⟩
  · dsimp only
    rw [List.length_take]
    omega
  · rw [← hmagic, LdnHeader.magic, LdnHeader.magic]
    have hslice : slice (b.take (12 + len.toNat)) 0 4 = slice b 0 4 :=
      slice_take (by omega) (by omega)
    exact congrArg (· >>= getU32le) hslice
  · rw [← hlen, LdnHeader.len, LdnHeader.len]
    have hslice : slice (b.take (12 + len.toNat)) 6 8 = slice b 6 8 :=
      slice_take (by omega) (by omega)
    exact congrArg (· >>= getU16le) hslice
  · dsimp only
    rw [List.length_take]
    omega

/-- **When the length field delimits the packet**: if nothing comes behind the
declared length, or if the payload is compressed and neither what was declared
nor all of it fills the buffer. -/
theorem delimited_iff {b : Packet} {len n : UInt16} (hcheck : LdnHeader.check ⟨b⟩ = .ok (.ok ()))
    (hlen : LdnHeader.len ⟨b⟩ = .ok len) (hn : LdnHeader.decompressLen ⟨b⟩ = .ok n) :
    LdnPacket.new b = LdnPacket.new (b.take (12 + len.toNat)) ↔
      b.length = 12 + len.toNat ∨
        (LdnHeader.compressed ⟨b⟩ = .ok 1 ∧ ¬ Fills ((b.drop 12).take len.toNat) n.toNat ∧
          ¬ Fills (b.drop 12) n.toNat) := by
  obtain ⟨h12, _, len', hlen', hle⟩ := LdnHeader.check_eq_ok_iff.mp hcheck
  rw [hlen] at hlen'
  cases hlen'
  dsimp only at h12 hle
  by_cases hall : b.length = 12 + len.toNat
  · rw [← hall, List.take_length]
    exact iff_of_true rfl (.inl rfl)
  · have hget : ∀ i < 12, (b.take (12 + len.toNat)).getD i 0 = b.getD i 0 := by
      intro i hi
      rw [List.getD_eq_getElem?_getD, List.getElem?_take, if_pos (by omega),
        List.getD_eq_getElem?_getD]
    have hn' : be16 (b.getD 9 0) (b.getD 8 0) = n := by
      rw [LdnHeader.decompressLen_ok h12] at hn
      cases hn
      rfl
    have hdrop : (b.take (12 + len.toNat)).drop 12 = (b.drop 12).take len.toNat := by
      rw [List.drop_take, Nat.add_sub_cancel_left]
    have hrest : (b.drop 12).drop len.toNat ≠ [] := by
      apply List.ne_nil_of_length_pos
      rw [List.length_drop, List.length_drop]
      omega
    rw [new_of_check hcheck, new_of_check (check_take hcheck hlen), hget 5 (by omega),
      hget 4 (by omega), hget 9 (by omega), hget 8 (by omega), hn', hdrop,
      LdnHeader.compressed_ok h12, or_iff_right hall, Except.ok.injEq]
    by_cases hc : b.getD 5 0 = 1
    · have hunpack := unpack_eq_append_iff (b.getD 4 0) ((b.drop 12).take len.toNat) n.toNat hrest
      rw [List.take_append_drop] at hunpack
      rw [if_pos hc, if_pos hc, and_iff_right hc]
      exact hunpack
    · rw [if_neg hc, if_neg hc]
      refine iff_of_false ?_ fun h => hc h.1
      intro h
      have hpayload : b.drop 12 = (b.drop 12).take len.toNat :=
        congrArg LdnPacket.payload (Except.ok.inj (Except.ok.inj h))
      have hlength := congrArg List.length hpayload
      rw [List.length_take, List.length_drop] at hlength
      omega

/-- Four bytes, of which two are declared, for a buffer of three. -/
theorem delimited_unfilled :
    LdnPacket.new (compressedHeader 1 2 3 ++ [0, 1, 9, 9]) =
      LdnPacket.new (compressedHeader 1 2 3 ++ [0, 1]) :=
  (delimited_iff (b := compressedHeader 1 2 3 ++ [0, 1, 9, 9]) rfl rfl rfl).mpr (by decide)

/-- One byte behind a packet that declares none. -/
theorem undeclared_byte : ¬ ∀ (b : Packet) (len : UInt16), LdnHeader.check ⟨b⟩ = .ok (.ok ()) →
    LdnHeader.len ⟨b⟩ = .ok len → LdnPacket.new b = LdnPacket.new (b.take (12 + len.toNat)) := by
  intro h
  have hcut := h [0x00, 0x14, 0x45, 0x11, 1, 0, 0, 0, 0, 0, 0, 0, 9] 0 rfl rfl
  have hall : LdnPacket.new [0x00, 0x14, 0x45, 0x11, 1, 0, 0, 0, 0, 0, 0, 0, 9] =
      .ok (.ok ⟨1, [9]⟩) := rfl
  have hpart : LdnPacket.new [0x00, 0x14, 0x45, 0x11, 1, 0, 0, 0, 0, 0, 0, 0] =
      .ok (.ok ⟨1, []⟩) := rfl
  exact absurd (hall.symm.trans (hcut.trans hpart)) (by decide)

end LanProtocol

end SlpServer
