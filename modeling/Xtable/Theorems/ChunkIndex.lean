import Xtable.Theorems.ChunkReads

/-! What a chunk's lookups rest on: the bytes of a key order as its parts do, a filter answers for each key put into
    it, and the sampled key index names the offsets of the entries in the body. -/

namespace Xtable

open Parser Decoder

/-! ## Composite keys -/

section Separated

variable {α : Type} [LT α] [Std.Irrefl (α := α) (· < ·)] [Std.Asymm (α := α) (· < ·)] {z : α}

theorem append_separator_lt {xs ys : List α} (hz : ∀ x, x ≠ z → z < x) (hxs : z ∉ xs) (hys : z ∉ ys) (as bs : List α) :
    xs ++ z :: as < ys ++ z :: bs ↔ xs < ys ∨ xs = ys ∧ as < bs := by
  induction xs generalizing ys with
  | nil =>
    cases ys with
    | nil => simp [Std.Irrefl.irrefl]
    | cons y ys =>
      have hy : z < y := hz y fun h => hys (by simp [h])
      simp [List.cons_lt_cons_iff, hy]
  | cons x xs ih =>
    have hx : z < x := hz x fun h => hxs (by simp [h])
    have hxs' : z ∉ xs := fun h => hxs (List.mem_cons_of_mem _ h)
    cases ys with
    | nil =>
      have hnot : ¬ x < z := Std.Asymm.asymm _ _ hx
      have hne : x ≠ z := fun h => hxs (by simp [h])
      simp [List.cons_lt_cons_iff, hnot, hne]
    | cons y ys =>
      have hys' : z ∉ ys := fun h => hys (List.mem_cons_of_mem _ h)
      simp only [List.cons_append, List.cons_lt_cons_iff, ih hxs' hys', List.cons.injEq]
      tauto

end Separated

theorem zero_not_mem_map_ofNat {l : List Nat} (h : ∀ n ∈ l, 0 < n ∧ n < 256) : 0 ∉ l.map UInt8.ofNat := by
  intro hzero
  obtain ⟨n, hn, heq⟩ := List.mem_map.1 hzero
  obtain ⟨hpos, hlt⟩ := h n hn
  have htoNat := congrArg UInt8.toNat heq
  rw [UInt8.toNat_ofNat_of_lt' hlt, UInt8.toNat_zero] at htoNat
  omega

theorem zero_not_mem_utf8EncodeChar {ch : Char} (h : ch ≠ '\x00') : 0 ∉ String.utf8EncodeChar ch := by
  have hval : ch.val.toNat ≠ 0 := fun hzero => h (Char.ext (UInt32.toNat_inj.1 hzero))
  unfold String.utf8EncodeChar
  generalize ch.val.toNat = v at hval ⊢
  dsimp only
  split_ifs with h1 h2 h3
  · exact zero_not_mem_map_ofNat (l := [v]) (by simp; omega)
  · exact zero_not_mem_map_ofNat (l := [v / 64 % 32 + 192, v % 64 + 128]) (by simp; omega)
  · exact zero_not_mem_map_ofNat (l := [v / 4096 % 16 + 224, v / 64 % 64 + 128, v % 64 + 128]) (by simp; omega)
  · exact zero_not_mem_map_ofNat
      (l := [v / 262144 % 8 + 240, v / 4096 % 64 + 128, v / 64 % 64 + 128, v % 64 + 128]) (by simp; omega)

theorem zero_not_mem_utf8 {s : String} (hs : '\x00' ∉ s.toList) : 0 ∉ utf8 s := by
  have hbytes : utf8 s = s.toList.flatMap String.utf8EncodeChar := by
    conv_lhs => rw [← String.ofList_toList (s := s)]
    rw [utf8, String.toUTF8, String.toByteArray_ofList, List.utf8Encode]
    simp
  rw [hbytes, List.mem_flatMap]
  rintro ⟨ch, hch, hzero⟩
  exact zero_not_mem_utf8EncodeChar (fun h => hs (h ▸ hch)) hzero

/-- No part of the key has a NUL character. -/
structure NulFree (key : RecordKey) : Prop where
  space : '\x00' ∉ key.1.toList
  table : '\x00' ∉ key.2.1.toList
  recordId : '\x00' ∉ key.2.2.toList

/-- The parts of one key come before those of another, compared as byte strings one after the other. -/
def KeyBefore (a b : RecordKey) : Prop :=
  utf8 a.1 < utf8 b.1 ∨ utf8 a.1 = utf8 b.1 ∧
    (utf8 a.2.1 < utf8 b.2.1 ∨ utf8 a.2.1 = utf8 b.2.1 ∧ utf8 a.2.2 < utf8 b.2.2)

theorem composeKeyBytes_lt {a b : RecordKey} (ha : NulFree a) (hb : NulFree b) :
    composeKeyBytes a.1 a.2.1 a.2.2 < composeKeyBytes b.1 b.2.1 b.2.2 ↔ KeyBefore a b := by
  have hz : ∀ x : UInt8, x ≠ 0 → 0 < x := fun x hx => UInt8.pos_iff_ne_zero.2 hx
  rw [composeKeyBytes, composeKeyBytes,
    append_separator_lt hz (zero_not_mem_utf8 ha.space) (zero_not_mem_utf8 hb.space),
    append_separator_lt hz (zero_not_mem_utf8 ha.table) (zero_not_mem_utf8 hb.table), KeyBefore]

theorem keyParts_composeKeyBytes {a : RecordKey} (ha : NulFree a) (c : Codecs) :
    Reads (keyParts c (composeKeyBytes a.1 a.2.1 a.2.2)) [] a :=
  keyParts_reads (zero_not_mem_utf8 ha.space) (zero_not_mem_utf8 ha.table) (zero_not_mem_utf8 ha.recordId)

/-- The bytes of a key order as its parts do, differ for different keys, and split into its parts again. -/
theorem composeKeyBytes_faithful {a b : RecordKey} (ha : NulFree a) (hb : NulFree b) :
    (composeKeyBytes a.1 a.2.1 a.2.2 < composeKeyBytes b.1 b.2.1 b.2.2 ↔ KeyBefore a b) ∧
      (composeKeyBytes a.1 a.2.1 a.2.2 = composeKeyBytes b.1 b.2.1 b.2.2 ↔ a = b) ∧
      ∀ c, Reads (keyParts c (composeKeyBytes a.1 a.2.1 a.2.2)) [] a := by
  refine ⟨composeKeyBytes_lt ha hb, ⟨fun heq => ?_, fun heq => heq ▸ rfl⟩, keyParts_composeKeyBytes ha⟩
  -- both keys are what the same bytes split into
  have hread (k : RecordKey) (hk : NulFree k) := keyParts_composeKeyBytes hk .stored [] []
  have hkeys := hread a ha
  rw [heq, hread b hb] at hkeys
  exact (congrArg Prod.fst (Except.ok.inj hkeys)).symm

/-- A part that is the beginning of another comes first. -/
theorem composeKeyBytes_faithful_beginning :
    (composeKeyBytes "a" "b" "c" < composeKeyBytes "a" "b!" "a" ↔ KeyBefore ("a", "b", "c") ("a", "b!", "a")) ∧
      (composeKeyBytes "a" "b" "c" = composeKeyBytes "a" "b!" "a" ↔ (("a", "b", "c") : RecordKey) = ("a", "b!", "a")) ∧
      ∀ c, Reads (keyParts c (composeKeyBytes "a" "b" "c")) [] (("a", "b", "c") : RecordKey) :=
  composeKeyBytes_faithful (a := ("a", "b", "c")) (b := ("a", "b!", "a")) ⟨by decide, by decide, by decide⟩
    ⟨by decide, by decide, by decide⟩

/-! ## Filters -/

section Filter

variable {c : Codecs} {len : Nat}

theorem bloomPos_eq (hlen : 0 < len) (h : UInt64) : bloomPos len h = .ok (h.toNat % (len * 8)) := if_neg (by omega)

theorem addKey_indexing {bits : Bytes} (hlen : 0 < len) (hbits : bits.length = len) (hs : List UInt64) :
    hs.foldlM (fun bits h => do
      let pos ← bloomPos len h
      setBitIndexing bits pos) bits = .ok (hs.foldl (fun bits h => setBit bits (h.toNat % (len * 8))) bits) := by
  induction hs generalizing bits with
  | nil => rfl
  | cons h hs ih =>
    have hset : setBitIndexing bits (h.toNat % (len * 8)) = .ok (setBit bits (h.toNat % (len * 8))) :=
      if_pos ((bloomPos_lt hlen h).trans_eq hbits.symm)
    rw [List.foldlM_cons, bloomPos_eq hlen]
    change (setBitIndexing bits (h.toNat % (len * 8)) >>= _) = _
    rw [hset]
    exact ih ((setBit_length _ _).trans hbits)

theorem fillBloomIndexing_eq (c : Codecs) (keys : List Bytes) (hlen : 0 < len) :
    fillBloomIndexing c keys len = .ok (fillBloom c keys len) := by
  have hfold : ∀ (ks : List Bytes) (bits : Bytes), bits.length = len →
      ks.foldlM (fun bits k => (bloomHashes c k).foldlM (fun bits h => do
        let pos ← bloomPos len h
        setBitIndexing bits pos) bits) bits = Except.ok (ks.foldl (addKey c len) bits) := by
    intro ks
    induction ks with
    | nil => exact fun _ _ => rfl
    | cons k ks ih =>
      intro bits hbits
      rw [List.foldlM_cons, addKey_indexing hlen hbits]
      exact ih _ ((addKey_length bits k).trans hbits)
  exact hfold keys _ List.length_replicate

theorem bitsSetIndexing_eq {bloom : Bytes} (hbloom : bloom ≠ []) (hs : List UInt64) :
    bitsSetIndexing bloom hs = .ok (hs.all fun h =>
      ((bloom[h.toNat % (bloom.length * 8) / 8]?).getD 0) &&&
        (1 <<< UInt8.ofNat (h.toNat % (bloom.length * 8) % 8)) ≠ 0) := by
  have hlen : 0 < bloom.length := List.length_pos_iff.2 hbloom
  induction hs with
  | nil => rfl
  | cons h hs ih =>
    rw [bitsSetIndexing, bloomPos_eq hlen]
    simp only [bind, Except.bind, List.getElem?_eq_getElem (bloomPos_lt hlen h), Option.getD_some, List.all_cons]
    split
    next hclear => rw [decide_eq_false (not_not.2 hclear), Bool.false_and]
    next hset => rw [decide_eq_true hset, Bool.true_and, ih]

theorem bloomMayContainIndexing_eq (c : Codecs) (bloom key : Bytes) :
    bloomMayContainIndexing c bloom key = .ok (bloomMayContain c bloom key) := by
  unfold bloomMayContainIndexing bloomMayContain
  split
  · rfl
  · exact bitsSetIndexing_eq ‹_› _

/-- A filter of `len` bytes is filled without leaving it, and then answers for each of its keys. -/
def Answers (c : Codecs) (keys : List Bytes) (len : Nat) : Prop :=
  fillBloomIndexing c keys len = .ok (fillBloom c keys len) ∧
    ∀ key ∈ keys, bloomMayContainIndexing c (fillBloom c keys len) key = .ok true

theorem answers_of_pos (c : Codecs) (keys : List Bytes) (hlen : 0 < len) : Answers c keys len := by
  refine ⟨fillBloomIndexing_eq c keys hlen, fun key hkey => ?_⟩
  rw [bloomMayContainIndexing_eq, bloomMayContain_fillBloom c hlen hkey]

end Filter

/-- A filter answers for each of its keys, for whatever number of bits per key, also where the product of `usize` wraps;
and neither function has an index outside the filter. -/
theorem bloom_answers (c : Codecs) (keys : List Bytes) (bitsPerKey : Nat) :
    buildBloom c keys bitsPerKey = fillBloom c keys (bloomLen keys.length bitsPerKey) ∧
      Answers c keys (bloomLen keys.length bitsPerKey) ∧ Answers c keys (bloomLenWrapping keys.length bitsPerKey) ∧
      ∀ bloom key, bloomMayContainIndexing c bloom key = .ok (bloomMayContain c bloom key) := by
  have hwrapping : 0 < bloomLenWrapping keys.length bitsPerKey := by
    unfold bloomLenWrapping
    omega
  exact ⟨buildBloom_eq c keys bitsPerKey, answers_of_pos c keys (bloomLen_pos _ _), answers_of_pos c keys hwrapping,
    bloomMayContainIndexing_eq c⟩

/-! ## Samples -/

section Samples

variable {c : Codecs} {es all : List ChunkEntry} {body : Bytes}

theorem encodeEntryInto_covers (c : Codecs) (buf : Bytes) (e : ChunkEntry) :
    payloadLen e ≤ (buf ++ entryPayload e).length ∧
      encodeEntryInto c buf e = .ok (buf ++ entryPayload e ++ leBytes 4 (c.crc32 (entryPayload e)).toNat) := by
  refine ⟨?_, ?_⟩
  · rw [List.length_append, entryPayload_length]
    omega
  · rw [encodeEntryInto_eq, entryBytes, List.append_assoc]

/-- A sample stands for entry `n`: it has its key and version, and its offset is where the entry is found in the body.
-/
def SampleOf (c : Codecs) (es : List ChunkEntry) (body : Bytes) (k : KeyIndexEntry) (n : Nat) : Prop :=
  ∃ e, es[n]? = some e ∧ k.keyBytes = e.keyBytes ∧ k.commitVersion = e.commitVersion ∧
    decodeEntry c body k.bodyOffset.toNat = .ok (e, k.bodyOffset.toNat + (entryBytes c e).length)

theorem sampleKeys_samples {i : Nat} {pre : Bytes} {keyIndex : List KeyIndexEntry} (hfit : ∀ e ∈ es, e.Fits)
    (hlen : body.length < 2 ^ 64) (hbody : body = pre ++ bodyBytes c es) (hall : all.drop i = es)
    (h : sampleKeys c i pre.length es = .ok keyIndex) : List.Forall₂ (SampleOf c all body) keyIndex
      ((List.range' i es.length).filter (· % keyIndexSampleEvery = 0)) := by
  induction es generalizing i pre keyIndex with
  | nil =>
    cases h
    exact .nil
  | cons e es ih =>
    have hentry : encodedEntryLen c e = .ok (entryBytes c e).length := by
      rw [encodedEntryLen, encodeEntryInto_eq]
      rfl
    have hbody' : body = pre ++ (entryBytes c e ++ bodyBytes c es) := hbody
    have hrest : all.drop (i + 1) = es := by
      rw [← List.drop_drop, hall]
      rfl
    rw [sampleKeys, hentry] at h
    simp only [bind, Except.bind] at h
    cases hsamples : sampleKeys c (i + 1) (pre.length + (entryBytes c e).length) es with
    | error x =>
      rw [hsamples] at h
      cases h
    | ok rest =>
      rw [hsamples] at h
      have hbody'' : body = (pre ++ entryBytes c e) ++ bodyBytes c es := by rw [hbody', List.append_assoc]
      have hih := ih (fun x hx => hfit x (List.mem_cons_of_mem _ hx)) hbody'' hrest (by rwa [List.length_append])
      rw [List.length_cons, List.range'_succ, List.filter_cons]
      by_cases hsample : i % keyIndexSampleEvery = 0
      · simp only [hsample, if_true] at h
        cases h
        simp only [hsample, decide_true, if_true]
        refine .cons ⟨e, ?_, rfl, rfl, ?_⟩ hih
        · have hhead : (all.drop i)[0]? = some e := by
            rw [hall]
            rfl
          rwa [List.getElem?_drop] at hhead
        · have hoffset : (UInt64.ofNat pre.length).toNat = pre.length := by
            refine UInt64.toNat_ofNat_of_lt' ?_
            rw [hbody'] at hlen
            simp only [List.length_append] at hlen
            exact lt_of_le_of_lt (by omega) hlen
          simp only [hoffset]
          rw [hbody']
          exact decodeEntry_reads (hfit e (by simp)) pre (bodyBytes c es)
      · simp only [hsample, if_false] at h
        cases h
        simpa [hsample] using hih

end Samples

/-- The key index has one sample for each entry whose number is divisible by 256, in order, which stands for that entry;
and the encoder's subtraction does not underflow and its checksum covers the entry's own bytes. -/
theorem key_index_samples {c : Codecs} {chunkId space table : String} {es : List ChunkEntry} {w : ChunkWriter}
    {nowMs : Int64} {file : Bytes} {header : ChunkHeader} {footer : ChunkFooter} (hfit : ∀ e ∈ es, e.Fits)
    (hlen : w.body.length < 2 ^ 64) (happend : ChunkWriter.appendAll c es { chunkId, space, table } = .ok w)
    (hfinal : w.finalize c nowMs = .ok (file, header, footer)) :
    List.Forall₂ (SampleOf c es w.body) footer.keyIndex
        ((List.range es.length).filter (· % keyIndexSampleEvery = 0)) ∧
      ∀ buf, ∀ e ∈ es, payloadLen e ≤ (buf ++ entryPayload e).length ∧
        encodeEntryInto c buf e = .ok (buf ++ entryPayload e ++ leBytes 4 (c.crc32 (entryPayload e)).toNat) := by
  obtain rfl := ChunkWriter.appendAll_new happend
  obtain ⟨compressed, fb, h⟩ := ChunkWriter.finalizes_of_finalize hfinal
  refine ⟨?_, fun buf e _ => encodeEntryInto_covers c buf e⟩
  rw [List.range_eq_range']
  exact sampleKeys_samples hfit hlen (List.nil_append _).symm rfl h.keyIndex

/-- The samples of a file with enough entries for two of them. -/
theorem key_index_samples_two : ∃ w file header footer,
    ChunkWriter.appendAll .stored (.replicate 257 .small) { chunkId := "c", space := "s", table := "t" } = .ok w ∧
    w.finalize .stored 0 = .ok (file, header, footer) ∧
    List.Forall₂ (SampleOf .stored (.replicate 257 .small) w.body) footer.keyIndex [0, 256] ∧
      ∀ buf, ∀ e ∈ List.replicate 257 ChunkEntry.small, payloadLen e ≤ (buf ++ entryPayload e).length ∧
        encodeEntryInto .stored buf e =
          .ok (buf ++ entryPayload e ++ leBytes 4 (Codecs.stored.crc32 (entryPayload e)).toNat) := by
  generalize hes : List.replicate 257 ChunkEntry.small = es
  have hall : ∀ e ∈ es, e = .small := fun e he => List.eq_of_mem_replicate (hes ▸ he)
  have hcount : es.length = 257 := by rw [← hes, List.length_replicate]
  have hfit : ∀ e ∈ es, e.Fits := fun e he => hall e he ▸ ChunkEntry.small_fits
  have hkeys : ∀ e ∈ es, e.keyBytes.length < 2 ^ 64 := by
    intro e he
    rw [hall e he]
    decide
  obtain ⟨⟨file, header, footer⟩, hfinal⟩ := ChunkWriter.finalize_stored "c" "s" "t" es 0 (by omega) hkeys
  have happend : ChunkWriter.appendAll .stored es { chunkId := "c", space := "s", table := "t" } =
      .ok (.of .stored "c" "s" "t" es) := ChunkWriter.appendAll_of ..
  have hlen : (ChunkWriter.of .stored "c" "s" "t" es).body.length < 2 ^ 64 := by
    have hentry : (entryBytes .stored .small).length < 2 ^ 55 := by decide +kernel
    simp only [ChunkWriter.of, bodyBytes, ← hes, List.length_flatMap, List.map_replicate, List.sum_replicate_nat]
    omega
  obtain ⟨hsamples, hencode⟩ := key_index_samples hfit hlen happend hfinal
  have hsampled : (List.range es.length).filter (· % keyIndexSampleEvery = 0) = [0, 256] := by
    rw [hcount]
    decide +kernel
  exact ⟨_, file, header, footer, happend, hfinal, hsampled ▸ hsamples, hencode⟩

end Xtable
