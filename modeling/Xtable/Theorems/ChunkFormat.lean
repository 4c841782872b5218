import Xtable.Storage.Chunk

/-! Each field reads back if it fits its width; the fields compose to entries, entries to a body, and header, body
    and footer to a file. -/

namespace Xtable

open Parser Decoder

/-! ## Fields -/

theorem fromUTF8_utf8 (s : String) : String.fromUTF8? ⟨(utf8 s).toArray⟩ = some s := fromUTF8?_toUTF8 s

theorem utf8_of_fromUTF8 {bs : Bytes} {s : String} (h : String.fromUTF8? ⟨bs.toArray⟩ = some s) : utf8 s = bs :=
  toUTF8_of_fromUTF8? h

namespace Decoder

variable {c : Codecs}

theorem readLe_reads (n x : Nat) : Reads (readLe n) (leBytes n x) (x % 256 ^ n) := by
  have hbytes := Reads.bytes (ε := Fault) (leBytes n x) fun buf pos => storageFault ("chunk: truncated, need " ++
    toString n ++ " bytes at offset " ++ toString pos ++ ", have " ++ toString buf.length)
  rw [leBytes_length] at hbytes
  have hmap := hbytes.map (g := ofLeBytes)
  rw [ofLeBytes_leBytes] at hmap
  exact hmap

theorem readLe_fits {n x : Nat} (h : x < 256 ^ n) : Reads (readLe n) (leBytes n x) x := by
  have := readLe_reads n x
  rwa [Nat.mod_eq_of_lt h] at this

theorem slice_reads (bs : Bytes) : Reads (slice bs.length) bs bs := Reads.bytes bs _

theorem byte_fits {x : Nat} (h : x < 256) : Reads byte (leBytes 1 x) x := by
  have hmap := (slice_reads (leBytes 1 x)).map (g := ofLeBytes)
  rw [ofLeBytes_leBytes, Nat.mod_eq_of_lt (by simpa using h), leBytes_length] at hmap
  exact hmap

theorem text_reads (what s : String) : Reads (text c what (utf8 s)) [] s := by
  refine Reads.lift ?_
  rw [fromUTF8_utf8]

theorem readLe_ensures (n : Nat) : Ensures (readLe n) n fun x => x < 256 ^ n := by
  refine Ensures.bind (m := 0) (Ensures.bytes n _) fun bs hbs => .pure ?_
  rw [← hbs]
  exact ofLeBytes_lt bs

theorem slice_ensures (n : Nat) : Ensures (slice n) n fun bs => bs.length = n := Ensures.bytes n _

theorem byte_ensures : Ensures byte 1 fun x => x < 256 := by
  refine Ensures.bind (m := 0) (slice_ensures 1) fun bs hbs => .pure ?_
  have := ofLeBytes_lt bs
  rwa [hbs] at this

theorem text_ensures (what : String) (bs : Bytes) : Ensures (text c what bs) 0 fun s => utf8 s = bs := by
  refine Ensures.lift fun s hs => ?_
  split at hs
  case h_1 s' hs' =>
    cases hs
    exact utf8_of_fromUTF8 hs'
  case h_2 => cases hs

end Decoder

/-! ## The header -/

/-- The header's lengths fit their fields. -/
structure ChunkHeader.Fits (h : ChunkHeader) : Prop where
  chunkId : (utf8 h.chunkId).length < 65536
  space : (utf8 h.space).length < 65536
  table : (utf8 h.table).length < 65536
  keyMin : h.keyMin.length < 65536
  keyMax : h.keyMax.length < 65536

theorem headerFields_reads (c : Codecs) {h : ChunkHeader} (hfit : h.Fits) :
    Reads (headerFields c) (h.encode.drop 4) h := by
  have hnum : ∀ x : UInt64, Reads (readLe 8) (leBytes 8 x.toNat) x.toNat := fun x => readLe_fits x.toNat_lt
  have hlen : ∀ {n : Nat}, n < 65536 → Reads (readLe 2) (leBytes 2 n) n := fun hn => readLe_fits hn
  have hdrop : h.encode.drop 4 = leBytes 2 chunkVersion ++ (leBytes 2 (utf8 h.chunkId).length ++ (utf8 h.chunkId ++
      (leBytes 8 h.createdAtMs.toUInt64.toNat ++ (leBytes 8 h.compressedBodyLen.toNat ++
      (leBytes 8 h.uncompressedLen.toNat ++ (leBytes 2 (utf8 h.space).length ++ (utf8 h.space ++
      (leBytes 2 (utf8 h.table).length ++ (utf8 h.table ++ (leBytes 2 h.keyMin.length ++ (h.keyMin ++
      (leBytes 2 h.keyMax.length ++ (h.keyMax ++ leBytes 8 h.recordCount.toNat))))))))))))) := by
    simp only [ChunkHeader.encode, List.append_assoc]
    rfl
  rw [hdrop]
  refine (hlen (by decide)).bind ?_
  rw [if_neg (by simp)]
  refine (hlen hfit.chunkId).bind ((slice_reads _).bind ((text_reads _ _).bind_nil ?_))
  refine (hnum _).bind ((hnum _).bind ((hnum _).bind ?_))
  refine (hlen hfit.space).bind ((slice_reads _).bind ((text_reads _ _).bind_nil ?_))
  refine (hlen hfit.table).bind ((slice_reads _).bind ((text_reads _ _).bind_nil ?_))
  refine (hlen hfit.keyMin).bind ((slice_reads _).bind ((hlen hfit.keyMax).bind ((slice_reads _).bind ?_)))
  have hlast := (hnum h.recordCount).map (g := fun n => ({ h with recordCount := UInt64.ofNat n } : ChunkHeader))
  simpa using hlast

theorem ChunkHeader.take_encode (h : ChunkHeader) : h.encode.take 4 = chunkMagic := by
  simp only [encode, List.append_assoc]
  rfl

theorem ChunkHeader.encode_eq (h : ChunkHeader) : h.encode = chunkMagic ++ h.encode.drop 4 := by
  conv_lhs => rw [← List.take_append_drop 4 h.encode, take_encode]

theorem ChunkHeader.decode_encode (c : Codecs) {h : ChunkHeader} (hfit : h.Fits) (rest : Bytes) :
    ChunkHeader.decode c (h.encode ++ rest) = .ok (h, h.encode.length) := by
  have hlen : 6 ≤ h.encode.length := by
    simp only [encode, List.length_append, leBytes_length]
    have hmagic : chunkMagic.length = 4 := rfl
    omega
  have htake : (h.encode ++ rest).take 4 = chunkMagic := by
    rw [List.take_append_of_le_length (by omega), take_encode]
  have hread := headerFields_reads c hfit chunkMagic rest
  rw [← List.append_assoc, ← encode_eq] at hread
  have hdrop : chunkMagic.length + (h.encode.drop 4).length = h.encode.length := by
    rw [← List.length_append, ← encode_eq]
  rw [hdrop] at hread
  have hlong : ¬ (h.encode ++ rest).length < 4 + 2 := by
    rw [List.length_append]
    omega
  rw [decode, if_neg (not_or.2 ⟨hlong, not_not.2 htake⟩)]
  exact hread

/-! ## The footer -/

/-- `zstd` gives back what it was given. -/
abbrev Codecs.Unzips (c : Codecs) : Prop :=
  ∀ body compressed, c.zstdEncode body = .ok compressed → c.zstdDecode compressed = .ok body

/-- `zstd` and `bincode` give back what they were given. -/
structure Codecs.Lossless (c : Codecs) : Prop where
  zstd : ∀ body compressed, c.zstdEncode body = .ok compressed → c.zstdDecode compressed = .ok body
  bincode : ∀ keyIndex bs, c.bincodeSerialize keyIndex = .ok bs → c.bincodeDeserialize bs = .ok keyIndex

theorem ChunkFooter.decode_encode {c : Codecs} (hc : c.Lossless) {f : ChunkFooter} {bs : Bytes}
    (henc : f.encode c = .ok bs) (hlen : bs.length < 2 ^ 32) : ChunkFooter.decode c bs = .ok f := by
  unfold encode at henc
  split at henc
  case h_1 => cases henc
  case h_2 kiBytes hki =>
  cases henc
  have hnum : ∀ {n : Nat}, n < 2 ^ 32 → Reads (readLe 4) (leBytes 4 n) n := fun hn => readLe_fits hn
  simp only [List.length_append, leBytes_length] at hlen
  have hread : Reads (footerFields c) (leBytes 4 f.bloom.length ++ (f.bloom ++ (leBytes 4 kiBytes.length ++ (kiBytes ++
      leBytes 4 f.bodyCrc32c.toNat)))) f := by
    refine (hnum (by omega)).bind ((slice_reads _).bind ((hnum (by omega)).bind ((slice_reads _).bind ?_)))
    refine Reads.bind_nil (Reads.lift (a := f.keyIndex) ?_) ?_
    · rw [hc.bincode _ _ hki]
    · have hlast := (hnum f.bodyCrc32c.toNat_lt).map (g := fun n => ({ f with bodyCrc32c := UInt32.ofNat n } : ChunkFooter))
      simpa using hlast
  have hstart := hread.start footerMagic
  simp only [← List.append_assoc] at hstart
  have hmagic : footerMagic.length = 4 := rfl
  rw [decode, if_neg, hstart]
  · rfl
  · simp only [not_or, not_lt, ne_eq, not_not]
    refine ⟨?_, ?_⟩
    · simp only [List.length_append, leBytes_length]
      omega
    · rw [List.length_append, hmagic, Nat.add_sub_cancel, List.drop_left]

theorem ChunkFooter.decode_bloom_lt {c : Codecs} {bs : Bytes} {f : ChunkFooter} (h : ChunkFooter.decode c bs = .ok f) :
    f.bloom.length < 2 ^ 32 := by
  have hens : Ensures (footerFields c) 0 fun f => f.bloom.length < 2 ^ 32 := by
    refine (readLe_ensures 4).bind_zero fun n hn => (slice_ensures n).bind_zero fun bloom hbloom => ?_
    refine (readLe_ensures 4).bind_zero fun kiLen _ => (slice_ensures kiLen).bind_zero fun kiBytes _ => ?_
    refine Ensures.bind_zero (Q := fun _ => True) (Ensures.lift fun _ _ => trivial) fun keyIndex _ => ?_
    refine (readLe_ensures 4).bind_zero fun crc _ => .pure ?_
    simpa [hbloom] using hn
  unfold decode at h
  split at h
  · cases h
  · cases hfields : footerFields c bs 0 with
    | error x => rw [hfields] at h; cases h
    | ok r =>
      rw [hfields] at h
      cases h
      exact (hens bs 0 r.1 r.2 hfields).2

/-! ## Entries -/

/-- The fields of an entry fit the format. -/
structure ChunkEntry.Fits (e : ChunkEntry) : Prop where
  key : e.keyBytes.length ≤ 65535
  space : 0 ∉ utf8 e.space
  table : 0 ∉ utf8 e.table
  recordId : 0 ∉ utf8 e.recordId
  value : e.value.length < 2 ^ 32
  contentType : ∀ ct ∈ e.contentType, 0 < (utf8 ct).length ∧ (utf8 ct).length ≤ 255
  metaCount : e.userMeta.length ≤ 255
  userMeta : ∀ x ∈ e.userMeta, (utf8 x.1).length ≤ 255 ∧ (utf8 x.2).length ≤ 255
  txnId : (utf8 e.txnId).length ≤ 255

/-- An entry as it stands in the body. -/
def entryBytes (c : Codecs) (e : ChunkEntry) : Bytes :=
  entryPayload e ++ leBytes 4 (c.crc32 (entryPayload e)).toNat

theorem entryPayload_length (e : ChunkEntry) : (entryPayload e).length = payloadLen e := by
  have hmeta : (e.userMeta.flatMap metaBytes).length =
      (e.userMeta.map fun x => 1 + (utf8 x.1).length + 1 + (utf8 x.2).length).sum := by
    rw [List.length_flatMap]
    refine congrArg List.sum (List.map_congr_left fun x _ => ?_)
    simp only [metaBytes, List.length_append, leBytes_length]
  simp only [entryPayload, payloadLen, List.length_append, leBytes_length, hmeta]
  omega

theorem encodeEntryInto_eq (c : Codecs) (buf : Bytes) (e : ChunkEntry) :
    encodeEntryInto c buf e = .ok (buf ++ entryBytes c e) := by
  simp [encodeEntryInto, entryBytes, ← entryPayload_length]

section Entry

variable {c : Codecs} {e : ChunkEntry}

theorem keyParts_reads {space table recordId : String} (hspace : 0 ∉ utf8 space) (htable : 0 ∉ utf8 table)
    (hrecordId : 0 ∉ utf8 recordId) :
    Reads (keyParts c (composeKeyBytes space table recordId)) [] (space, table, recordId) := by
  have hsplit : (composeKeyBytes space table recordId).splitOn 0 = [utf8 space, utf8 table, utf8 recordId] :=
    splitOn_eq_three.2 ⟨rfl, hspace, htable, hrecordId⟩
  rw [keyParts, hsplit]
  exact (text_reads _ _).bind_nil ((text_reads _ _).bind_nil (text_reads _ _).map)

theorem metaPair_reads {x : String × String} (hx : (utf8 x.1).length ≤ 255 ∧ (utf8 x.2).length ≤ 255) :
    Reads (metaPair c) (metaBytes x) x := by
  rw [metaBytes, List.append_assoc, List.append_assoc]
  refine (byte_fits (by omega)).bind ((slice_reads _).bind ((text_reads _ _).bind_nil ?_))
  exact (byte_fits (by omega)).bind ((slice_reads _).bind_last (text_reads _ _).map)

theorem contentTypeField_reads (hfit : e.Fits) : Reads (contentTypeField c)
    (leBytes 1 (utf8 (e.contentType.getD "")).length ++ utf8 (e.contentType.getD "")) e.contentType := by
  cases hct : e.contentType with
  | none => exact (byte_fits (by decide)).bind (Reads.pure none)
  | some ct =>
    obtain ⟨hpos, hle⟩ := hfit.contentType ct hct
    refine (byte_fits (by simpa using Nat.lt_succ_of_le hle)).bind ?_
    rw [Option.getD_some, if_pos hpos]
    exact (slice_reads _).bind_last (text_reads _ _).map

theorem decodeEntry_reads (hfit : e.Fits) : Reads (decodeEntry c) (entryBytes c e) e := by
  have hbytes : entryBytes c e = leBytes 2 e.keyBytes.length ++ (e.keyBytes ++ (leBytes 4 e.value.length ++ (e.value ++
      ((leBytes 1 (utf8 (e.contentType.getD "")).length ++ utf8 (e.contentType.getD "")) ++
      (leBytes 1 e.userMeta.length ++ (e.userMeta.flatMap metaBytes ++ (leBytes 4 e.schemaVersion.toNat ++
      (leBytes 1 (utf8 e.txnId).length ++ (utf8 e.txnId ++ (leBytes 8 e.commitVersion.toNat ++
      (leBytes 8 e.walSeq.toNat ++ (leBytes 1 (if e.deleted then 1 else 0) ++
      leBytes 4 (c.crc32 (entryPayload e)).toNat)))))))))))) := by
    simp only [entryBytes, entryPayload, List.append_assoc]
  rw [hbytes]
  have hkey := hfit.key
  have hvalue := hfit.value
  have hcount := hfit.metaCount
  have htxn := hfit.txnId
  refine (readLe_fits (by omega)).bind ((slice_reads _).bind
    ((keyParts_reads hfit.space hfit.table hfit.recordId).bind_nil ?_))
  refine (readLe_fits hvalue).bind ((slice_reads _).bind ((contentTypeField_reads hfit).bind ?_))
  refine (byte_fits (by omega)).bind ((Reads.times fun x hx => metaPair_reads (hfit.userMeta x hx)).bind ?_)
  refine (readLe_fits e.schemaVersion.toNat_lt).bind ((byte_fits (by omega)).bind ((slice_reads _).bind ?_))
  refine (text_reads _ _).bind_nil ((readLe_fits e.commitVersion.toNat_lt).bind ((readLe_fits e.walSeq.toNat_lt).bind ?_))
  refine (byte_fits (by split <;> decide)).bind ((readLe_reads 4 _).bind_last ?_)
  have hdeleted : decide ((if e.deleted then 1 else 0) % 2 ≠ 0) = e.deleted := by cases e.deleted <;> rfl
  simp only [UInt32.ofNat_toNat, UInt64.ofNat_toNat, hdeleted]
  exact .pure e

/-! ## What any entry read back is like -/

theorem sum_splitOn_le (xs : Bytes) : ((xs.splitOn 0).map List.length).sum ≤ xs.length := by
  induction xs with
  | nil => simp
  | cons x xs ih =>
    rw [List.splitOn_cons_eq_if_modifyHead]
    split
    · simp only [List.map_cons, List.sum_cons, List.length_nil, List.length_cons]
      omega
    · obtain ⟨first, rest, hparts⟩ := List.exists_cons_of_ne_nil (List.splitOn_ne_nil 0 xs)
      rw [hparts] at ih ⊢
      simp only [List.modifyHead_cons, List.map_cons, List.sum_cons, List.length_cons] at ih ⊢
      omega

theorem parts_length_le (parts : List Bytes) :
    ((parts[0]?).getD []).length + ((parts[1]?).getD []).length + ((parts[2]?).getD []).length ≤
      (parts.map List.length).sum := by
  match parts with
  | [] => simp
  | [a] => simp
  | [a, b] => simp
  | a :: b :: d :: rest =>
    simp
    omega

theorem getD_not_mem {xs : Bytes} (i : Nat) : 0 ∉ ((xs.splitOn 0)[i]?).getD [] := by
  cases hpart : (xs.splitOn 0)[i]? with
  | none => simp
  | some part => exact not_mem_of_mem_splitOn (List.mem_of_getElem? hpart)

/-- The bytes of a key without its separators. -/
def ChunkEntry.keyLen (e : ChunkEntry) : Nat :=
  (utf8 e.space).length + (utf8 e.table).length + (utf8 e.recordId).length

theorem ChunkEntry.keyBytes_length (e : ChunkEntry) : e.keyBytes.length = e.keyLen + 2 := by
  simp only [keyBytes, composeKeyBytes, keyLen, List.length_append, List.length_cons]
  omega

theorem keyParts_ensures (bs : Bytes) : Ensures (keyParts c bs) 0 fun k =>
    0 ∉ utf8 k.1 ∧ 0 ∉ utf8 k.2.1 ∧ 0 ∉ utf8 k.2.2 ∧
      (utf8 k.1).length + (utf8 k.2.1).length + (utf8 k.2.2).length ≤ bs.length := by
  refine (text_ensures _ _).bind_zero fun space hspace => (text_ensures _ _).bind_zero fun table htable => ?_
  refine (text_ensures _ _).bind_zero fun recordId hrecordId => .pure ?_
  simp only [hspace, htable, hrecordId]
  exact ⟨getD_not_mem 0, getD_not_mem 1, getD_not_mem 2, (parts_length_le _).trans (sum_splitOn_le bs)⟩

theorem metaPair_ensures : Ensures (metaPair c) 0 fun x => (utf8 x.1).length ≤ 255 ∧ (utf8 x.2).length ≤ 255 := by
  refine byte_ensures.bind_zero fun klen hk => (slice_ensures klen).bind_zero fun kBytes hkBytes => ?_
  refine (text_ensures _ _).bind_zero fun k hktext => byte_ensures.bind_zero fun vlen hv => ?_
  refine (slice_ensures vlen).bind_zero fun vBytes hvBytes => (text_ensures _ _).bind_zero fun v hvtext => .pure ?_
  simp only [hktext, hvtext]
  omega

theorem contentTypeField_ensures : Ensures (contentTypeField c) 0 fun o =>
    ∀ ct ∈ o, 0 < (utf8 ct).length ∧ (utf8 ct).length ≤ 255 := by
  refine byte_ensures.bind_zero fun n hn => ?_
  split
  case isTrue hpos =>
    refine (slice_ensures n).bind_zero fun bs hbs => (text_ensures _ _).bind_zero fun ct hct => .pure ?_
    simp only [Option.mem_def, Option.some.injEq, forall_eq', hct]
    omega
  case isFalse => exact .pure (by simp)

theorem entryFields_ensures (n : Nat) : Ensures (entryFields c n) 0 fun e =>
    e.keyLen ≤ n ∧ (e.keyBytes.length ≤ 65535 → e.Fits) := by
  refine (slice_ensures n).bind_zero fun keyBytes hkey => (keyParts_ensures keyBytes).bind_zero fun key hparts => ?_
  refine (readLe_ensures 4).bind_zero fun valueLen hvalueLen => (slice_ensures _).bind_zero fun value hvalue => ?_
  refine contentTypeField_ensures.bind_zero fun contentType hct => byte_ensures.bind_zero fun count hcount => ?_
  refine (metaPair_ensures.times count).bind_zero fun userMeta hmeta => (readLe_ensures 4).bind_zero fun _ _ => ?_
  refine byte_ensures.bind_zero fun txnLen htxnLen => (slice_ensures _).bind_zero fun txnBytes htxn => ?_
  refine (text_ensures _ _).bind_zero fun txnId htxnId => (readLe_ensures 8).bind_zero fun _ _ => ?_
  refine (readLe_ensures 8).bind_zero fun _ _ => byte_ensures.bind_zero fun _ _ => ?_
  refine (readLe_ensures 4).bind_zero fun _ _ => .pure ⟨?_, fun hlen => ?_⟩
  · exact hkey ▸ hparts.2.2.2
  · have hmetaCount : userMeta.length ≤ 255 := by omega
    have htxnLen : (utf8 txnId).length ≤ 255 := by
      rw [htxnId]
      omega
    exact ⟨hlen, hparts.1, hparts.2.1, hparts.2.2.1, hvalue ▸ hvalueLen, hct, hmetaCount, hmeta.2, htxnLen⟩

theorem fits_of_decodeEntry {pre post : Bytes} {pos : Nat}
    (h : decodeEntry c (pre ++ (entryBytes c e ++ post)) pre.length = .ok (e, pos)) : e.Fits := by
  have hkeyLen := readLe_reads 2 e.keyBytes.length pre ((entryBytes c e ++ post).drop 2)
  have hsplit : leBytes 2 e.keyBytes.length ++ (entryBytes c e ++ post).drop 2 = entryBytes c e ++ post := by
    simp only [entryBytes, entryPayload, List.append_assoc]
    rfl
  rw [hsplit] at hkeyLen
  rw [decodeEntry, bind_apply, hkeyLen] at h
  obtain ⟨-, hle, hfits⟩ := entryFields_ensures _ _ _ _ _ h
  refine hfits ?_
  -- a key that is too long is written with a length that it cannot be read back with
  rw [e.keyBytes_length] at hle ⊢
  have hpow : 256 ^ 2 = 65536 := rfl
  rw [hpow] at hle
  omega

end Entry

/-! ## The body -/

section Body

variable {c : Codecs} {es : List ChunkEntry}

def bodyBytes (c : Codecs) (es : List ChunkEntry) : Bytes := es.flatMap (entryBytes c)

theorem entryBytes_pos (c : Codecs) (e : ChunkEntry) : 0 < (entryBytes c e).length := by
  simp only [entryBytes, List.length_append, leBytes_length]
  omega

theorem length_le_bodyBytes (c : Codecs) (es : List ChunkEntry) : es.length ≤ (bodyBytes c es).length := by
  induction es with
  | nil => simp
  | cons e es ih =>
    have hpos := entryBytes_pos c e
    simp only [bodyBytes, List.flatMap_cons, List.length_append, List.length_cons] at ih ⊢
    omega

theorem decodeEntries_iff (pre : Bytes) {fuel : Nat} (hfuel : es.length ≤ fuel) :
    decodeEntries c (pre ++ bodyBytes c es) fuel pre.length = .ok es ↔ ∀ e ∈ es, e.Fits := by
  induction es generalizing pre fuel with
  | nil => cases fuel <;> simp [decodeEntries, bodyBytes]
  | cons e es ih =>
    obtain ⟨fuel, rfl⟩ : ∃ k, fuel = k + 1 := ⟨fuel - 1, by simp at hfuel; omega⟩
    have hpos := entryBytes_pos c e
    have hbody : bodyBytes c (e :: es) = entryBytes c e ++ bodyBytes c es := rfl
    have hmore : pre.length < (pre ++ bodyBytes c (e :: es)).length := by
      rw [hbody, List.length_append, List.length_append]
      omega
    -- once the first entry has been read, the rest stands after it
    have hrest : e.Fits → (decodeEntries c (pre ++ bodyBytes c (e :: es)) (fuel + 1) pre.length = .ok (e :: es) ↔
        ∀ e ∈ es, e.Fits) := by
      intro hfit
      rw [decodeEntries, if_pos hmore, hbody, decodeEntry_reads hfit pre (bodyBytes c es)]
      rw [← ih (pre ++ entryBytes c e) (Nat.le_of_succ_le_succ hfuel), List.append_assoc, List.length_append]
      change (decodeEntries c _ fuel (pre.length + (entryBytes c e).length)).map (e :: ·) = _ ↔ _
      generalize decodeEntries c _ fuel (pre.length + (entryBytes c e).length) = r
      cases r with
      | error x => exact iff_of_false (fun h => by cases h) fun h => by cases h
      | ok es' => simp [Except.map]
    rw [List.forall_mem_cons]
    constructor
    · intro h
      have hfit : e.Fits := by
        rw [decodeEntries, if_pos hmore, hbody] at h
        cases hentry : decodeEntry c (pre ++ (entryBytes c e ++ bodyBytes c es)) pre.length with
        | error x =>
          rw [hentry] at h
          cases h
        | ok r =>
          rw [hentry] at h
          obtain ⟨e', pos⟩ := r
          cases hes : decodeEntries c (pre ++ (entryBytes c e ++ bodyBytes c es)) fuel pos with
          | error x =>
            simp only [hes] at h
            cases h
          | ok es' =>
            simp only [hes] at h
            obtain ⟨rfl, -⟩ := List.cons.inj (Except.ok.inj h)
            exact fits_of_decodeEntry hentry
      exact ⟨hfit, (hrest hfit).1 h⟩
    · intro h
      exact (hrest h.1).2 h.2

theorem decodeBodyEntries_iff (n : UInt64) :
    decodeBodyEntries c (bodyBytes c es) n = .ok es ↔ ∀ e ∈ es, e.Fits :=
  decodeEntries_iff [] (length_le_bodyBytes c es)

end Body

/-! ## The file -/

section File

variable {c : Codecs} {es : List ChunkEntry} {w w' : ChunkWriter}

theorem ChunkWriter.appendAll_eq (c : Codecs) (es : List ChunkEntry) (w : ChunkWriter) :
    w.appendAll c es = .ok { w with
      body := w.body ++ bodyBytes c es
      entries := w.entries ++ es
      keys := w.keys ++ es.map ChunkEntry.keyBytes } := by
  induction es generalizing w with
  | nil => simp [appendAll, bodyBytes]
  | cons e es ih =>
    have happend : w.append c e = .ok { w with
        body := w.body ++ entryBytes c e, entries := w.entries ++ [e], keys := w.keys ++ [e.keyBytes] } := by
      rw [append, encodeEntryInto_eq]
      rfl
    rw [appendAll, happend]
    change ChunkWriter.appendAll c es _ = _
    rw [ih]
    simp [bodyBytes]

theorem setBit_length (bits : Bytes) (pos : Nat) : (setBit bits pos).length = bits.length := by
  simp [setBit]

theorem buildBloom_length (c : Codecs) (keys : List Bytes) (n : Nat) :
    (buildBloom c keys n).length = bloomLen keys.length n := by
  have hfold : ∀ (len : Nat) (ks : List Bytes) (bits : Bytes), (ks.foldl (fun bits k =>
      [c.xxh3 k, c.xxh3 (leBytes 8 (c.xxh3 k).toNat)].foldl
        (fun bits h => setBit bits (h.toNat % (len * 8))) bits) bits).length = bits.length := by
    intro len ks
    induction ks with
    | nil => exact fun _ => rfl
    | cons k ks ih =>
      intro bits
      rw [List.foldl_cons, ih]
      simp only [List.foldl_cons, List.foldl_nil, setBit_length]
  exact (hfold _ keys _).trans List.length_replicate

/-- What `finalize` puts into a file. -/
structure ChunkWriter.Finalizes (c : Codecs) (nowMs : Int64) (w : ChunkWriter) (file : Bytes) (header : ChunkHeader)
    (footer : ChunkFooter) (compressed footerBytes : Bytes) : Prop where
  zstd : c.zstdEncode w.body = .ok compressed
  keyIndex : sampleKeys c 0 0 w.entries = .ok footer.keyIndex
  bloom : footer.bloom = buildBloom c w.keys bloomBitsPerKey
  chunkId : header.chunkId = w.chunkId
  space : header.space = w.space
  table : header.table = w.table
  keyMin : header.keyMin = leastKey w.keys
  keyMax : header.keyMax = greatestKey w.keys
  recordCount : header.recordCount = UInt64.ofNat w.entries.length
  encoded : footer.encode c = .ok footerBytes
  file_eq : file = header.encode ++ compressed ++ footerBytes ++ leBytes 4 footerBytes.length

theorem ChunkWriter.finalizes_of_finalize {nowMs : Int64} {file : Bytes} {header : ChunkHeader} {footer : ChunkFooter}
    (h : w.finalize c nowMs = .ok (file, header, footer)) :
    ∃ compressed footerBytes, w.Finalizes c nowMs file header footer compressed footerBytes := by
  unfold finalize at h
  split at h
  case h_1 => cases h
  case h_2 compressed hcompressed =>
    cases hki : sampleKeys c 0 0 w.entries with
    | error x =>
      rw [hki] at h
      cases h
    | ok keyIndex =>
      rw [hki] at h
      cases hfooter : (⟨buildBloom c w.keys bloomBitsPerKey, keyIndex, c.crc32 w.body⟩ : ChunkFooter).encode c with
      | error x =>
        simp only [bind, Except.bind, hfooter] at h
        cases h
      | ok footerBytes =>
        simp only [bind, Except.bind, hfooter] at h
        obtain ⟨hfile, hrest⟩ := Prod.mk.inj (Except.ok.inj h)
        obtain ⟨rfl, rfl⟩ := Prod.mk.inj hrest
        exact ⟨compressed, footerBytes, hcompressed, hki, rfl, rfl, rfl, rfl, rfl, rfl, rfl, hfooter, hfile.symm⟩

theorem readLe_footerLen (front fb : Bytes) (hfb : fb.length < 2 ^ 32) :
    readLe 4 (front ++ fb ++ leBytes 4 fb.length) ((front ++ fb ++ leBytes 4 fb.length).length - 4) =
      .ok (fb.length, (front ++ fb).length + 4) := by
  have hread := readLe_fits (n := 4) (x := fb.length) hfb (front ++ fb) []
  rw [List.append_nil, leBytes_length] at hread
  rw [List.length_append, leBytes_length, Nat.add_sub_cancel]
  exact hread

theorem sliceRange_mid (a b d : Bytes) : sliceRange (a ++ b ++ d) a.length (a ++ b).length = .ok b := by
  have hle : a.length ≤ (a ++ b).length ∧ (a ++ b).length ≤ (a ++ b ++ d).length := by
    simp only [List.length_append]
    omega
  rw [sliceRange, if_pos hle, List.take_left, List.drop_left]

theorem decompressBody_eq {header : ChunkHeader} (hfit : header.Fits) {compressed fb body : Bytes}
    (hfb : fb.length < 2 ^ 32) (hbody : c.zstdDecode compressed = .ok body) :
    decompressBody c (header.encode ++ compressed ++ fb ++ leBytes 4 fb.length) = .ok body := by
  have hheader := ChunkHeader.decode_encode c hfit (compressed ++ fb ++ leBytes 4 fb.length)
  simp only [← List.append_assoc] at hheader
  have hlong : ¬ (header.encode ++ compressed ++ fb ++ leBytes 4 fb.length).length < header.encode.length + 4 := by
    simp only [List.length_append, leBytes_length]
    omega
  have hslice := sliceRange_mid header.encode compressed (fb ++ leBytes 4 fb.length)
  rw [← List.append_assoc] at hslice
  have hend : (header.encode ++ compressed ++ fb ++ leBytes 4 fb.length).length - 4 - fb.length =
      (header.encode ++ compressed).length := by
    simp only [List.length_append, leBytes_length]
    omega
  simp only [decompressBody, hheader, bind, Except.bind, if_neg hlong, readLe_footerLen _ fb hfb, hend, hslice, hbody]

theorem decodeFooter_eq (front : Bytes) {fb : Bytes} (hfb : fb.length < 2 ^ 32) :
    decodeFooter c (front ++ fb ++ leBytes 4 fb.length) = ChunkFooter.decode c fb := by
  have hend : (front ++ fb ++ leBytes 4 fb.length).length - 4 = (front ++ fb).length := by
    rw [List.length_append, leBytes_length, Nat.add_sub_cancel]
  have hstart : (front ++ fb).length - fb.length = front.length := by
    rw [List.length_append, Nat.add_sub_cancel]
  have hread := readLe_footerLen front fb hfb
  rw [hend] at hread
  simp only [decodeFooter, hend, hread, bind, Except.bind, hstart, sliceRange_mid]

/-! ### The key range -/

theorem foldl_best {r : Bytes → Bytes → Prop} {pick : Bytes → Bytes → Bytes} (hrefl : ∀ a, r a a)
    (htrans : ∀ {a b d}, r a b → r b d → r a d)
    (hpick : ∀ a b, (pick a b = a ∧ r a b) ∨ (pick a b = b ∧ r b a)) (ks : List Bytes) (k : Bytes) :
    ks.foldl pick k ∈ k :: ks ∧ ∀ x ∈ k :: ks, r (ks.foldl pick k) x := by
  induction ks generalizing k with
  | nil => simpa using hrefl k
  | cons k' ks ih =>
    rw [List.foldl_cons]
    obtain ⟨hmem, hbest⟩ := ih (pick k k')
    have hfirst := hbest _ (List.mem_cons_self ..)
    have hcase : pick k k' ∈ [k, k'] ∧ r (pick k k') k ∧ r (pick k k') k' := by
      rcases hpick k k' with ⟨heq, hr⟩ | ⟨heq, hr⟩ <;> rw [heq]
      · exact ⟨by simp, hrefl k, hr⟩
      · exact ⟨by simp, hr, hrefl k'⟩
    constructor
    · rcases List.mem_cons.1 hmem with heq | hmem
      · rw [heq]
        have := hcase.1
        simp only [List.mem_cons, List.not_mem_nil, or_false] at this
        rcases this with h | h <;> simp [h]
      · simp [hmem]
    · intro x hx
      rcases List.mem_cons.1 hx with rfl | hx
      · exact htrans hfirst hcase.2.1
      · rcases List.mem_cons.1 hx with rfl | hx
        · exact htrans hfirst hcase.2.2
        · exact hbest x (List.mem_cons_of_mem _ hx)

theorem leastKey_spec {keys : List Bytes} (h : keys ≠ []) : leastKey keys ∈ keys ∧ ∀ k ∈ keys, leastKey keys ≤ k := by
  obtain ⟨k, ks, rfl⟩ := List.exists_cons_of_ne_nil h
  refine foldl_best (r := (· ≤ ·)) List.le_refl List.le_trans (fun a b => ?_) ks k
  by_cases hlt : b < a
  · exact .inr ⟨if_pos hlt, List.le_of_lt hlt⟩
  · exact .inl ⟨if_neg hlt, List.not_lt.1 hlt⟩

theorem greatestKey_spec {keys : List Bytes} (h : keys ≠ []) :
    greatestKey keys ∈ keys ∧ ∀ k ∈ keys, k ≤ greatestKey keys := by
  obtain ⟨k, ks, rfl⟩ := List.exists_cons_of_ne_nil h
  refine foldl_best (r := fun a b => b ≤ a) List.le_refl (fun hab hbd => List.le_trans hbd hab) (fun a b => ?_) ks k
  by_cases hlt : b < a
  · exact .inl ⟨if_pos hlt, List.le_of_lt hlt⟩
  · exact .inr ⟨if_neg hlt, List.not_lt.1 hlt⟩

theorem decodeFooter_bloom_lt {file : Bytes} {footer : ChunkFooter} (h : decodeFooter c file = .ok footer) :
    footer.bloom.length < 2 ^ 32 := by
  unfold decodeFooter at h
  cases hlen : readLe 4 file (file.length - 4) with
  | error x => rw [hlen] at h; cases h
  | ok r =>
    simp only [hlen, bind, Except.bind] at h
    split at h
    · cases h
    · exact ChunkFooter.decode_bloom_lt h

/-! ### Whole files -/

theorem sampleKeys_ok (c : Codecs) (i offset : Nat) (es : List ChunkEntry) : ∃ keyIndex,
    sampleKeys c i offset es = .ok keyIndex ∧ keyIndex.length ≤ es.length ∧
      ∀ k ∈ keyIndex, ∃ e ∈ es, k.keyBytes = e.keyBytes := by
  induction es generalizing i offset with
  | nil => exact ⟨[], rfl, by simp, by simp⟩
  | cons e es ih =>
    obtain ⟨keyIndex, hki, hlen, hkeys⟩ := ih (i + 1) (offset + (entryBytes c e).length)
    have hentry : encodedEntryLen c e = .ok (entryBytes c e).length := by
      rw [encodedEntryLen, encodeEntryInto_eq]
      rfl
    have hstep : sampleKeys c i offset (e :: es) = .ok (if i % keyIndexSampleEvery = 0 then
        ⟨e.keyBytes, UInt64.ofNat offset, e.commitVersion⟩ :: keyIndex else keyIndex) := by
      rw [sampleKeys, hentry]
      simp only [bind, Except.bind, hki]
      split <;> rfl
    refine ⟨_, hstep, ?_, fun k hk => ?_⟩
    · split <;> simp only [List.length_cons] <;> omega
    · split at hk
      · rcases List.mem_cons.1 hk with rfl | hk
        · exact ⟨e, by simp, rfl⟩
        · obtain ⟨e', he', hkey⟩ := hkeys k hk
          exact ⟨e', by simp [he'], hkey⟩
      · obtain ⟨e', he', hkey⟩ := hkeys k hk
        exact ⟨e', by simp [he'], hkey⟩

/-- The footer of these entries, with its bloom filter and key index, is shorter than `2^32` bytes. -/
def FooterFits (c : Codecs) (es : List ChunkEntry) : Prop :=
  ∀ keyIndex bs, sampleKeys c 0 0 es = .ok keyIndex → c.bincodeSerialize keyIndex = .ok bs →
    16 + bloomLen es.length bloomBitsPerKey + bs.length < 2 ^ 32

theorem ChunkFooter.encode_length {footer : ChunkFooter} {fb : Bytes} (h : footer.encode c = .ok fb) :
    ∃ bs, c.bincodeSerialize footer.keyIndex = .ok bs ∧ fb.length = 16 + footer.bloom.length + bs.length := by
  unfold encode at h
  split at h
  case h_1 => cases h
  case h_2 bs hbs =>
    cases h
    have hmagic : footerMagic.length = 4 := rfl
    refine ⟨bs, hbs, ?_⟩
    simp only [List.length_append, leBytes_length, hmagic]
    omega

/-- The writer after all entries. -/
def ChunkWriter.of (c : Codecs) (chunkId space table : String) (es : List ChunkEntry) : ChunkWriter where
  chunkId := chunkId
  space := space
  table := table
  body := bodyBytes c es
  entries := es
  keys := es.map ChunkEntry.keyBytes

theorem ChunkWriter.appendAll_of (c : Codecs) (chunkId space table : String) (es : List ChunkEntry) :
    ChunkWriter.appendAll c es { chunkId, space, table } = .ok (.of c chunkId space table es) := by
  rw [appendAll_eq]
  rfl

theorem ChunkWriter.appendAll_new {chunkId space table : String}
    (h : ChunkWriter.appendAll c es { chunkId, space, table } = .ok w) : w = .of c chunkId space table es := by
  rw [appendAll_of] at h
  cases h
  rfl

variable {chunkId space table : String} {nowMs : Int64} {file : Bytes} {header : ChunkHeader} {footer : ChunkFooter}
  {compressed fb : Bytes}

theorem ChunkWriter.Finalizes.footer_lt
    (h : (ChunkWriter.of c chunkId space table es).Finalizes c nowMs file header footer compressed fb)
    (hfooter : FooterFits c es) : fb.length < 2 ^ 32 := by
  obtain ⟨bs, hbs, hlen⟩ := ChunkFooter.encode_length h.encoded
  have hbloom : footer.bloom.length = bloomLen es.length bloomBitsPerKey := by
    rw [h.bloom, buildBloom_length]
    simp [of]
  have := hfooter _ bs h.keyIndex hbs
  omega

theorem ChunkWriter.Finalizes.header_fits
    (h : (ChunkWriter.of c chunkId space table es).Finalizes c nowMs file header footer compressed fb)
    (hid : (utf8 chunkId).length ≤ 65535) (hspace : (utf8 space).length ≤ 65535) (htable : (utf8 table).length ≤ 65535)
    (hkeys : ∀ e ∈ es, e.keyBytes.length ≤ 65535) : header.Fits := by
  have hkey : ∀ k ∈ es.map ChunkEntry.keyBytes, k.length < 65536 := by
    intro k hk
    obtain ⟨e, he, rfl⟩ := List.mem_map.1 hk
    exact Nat.lt_succ_of_le (hkeys e he)
  have hrange : (leastKey (es.map ChunkEntry.keyBytes)).length < 65536 ∧
      (greatestKey (es.map ChunkEntry.keyBytes)).length < 65536 := by
    by_cases hnil : es.map ChunkEntry.keyBytes = []
    · rw [hnil]
      exact ⟨by decide, by decide⟩
    · exact ⟨hkey _ (leastKey_spec hnil).1, hkey _ (greatestKey_spec hnil).1⟩
  exact ⟨h.chunkId ▸ Nat.lt_succ_of_le hid, h.space ▸ Nat.lt_succ_of_le hspace, h.table ▸ Nat.lt_succ_of_le htable,
    h.keyMin ▸ hrange.1, h.keyMax ▸ hrange.2⟩

theorem ChunkWriter.Finalizes.decompressBody (hc : c.Lossless)
    (h : (ChunkWriter.of c chunkId space table es).Finalizes c nowMs file header footer compressed fb)
    (hheader : header.Fits) (hfb : fb.length < 2 ^ 32) : decompressBody c file = .ok (bodyBytes c es) := by
  rw [h.file_eq]
  exact decompressBody_eq hheader hfb (hc.zstd _ _ h.zstd)

end File

/-- A file of entries that fit the format reads back: header, entries, footer and key range. -/
theorem chunk_round_trip {c : Codecs} (hc : c.Lossless) {chunkId space table : String} {es : List ChunkEntry}
    {w : ChunkWriter} {nowMs : Int64} {file : Bytes} {header : ChunkHeader} {footer : ChunkFooter}
    (hid : (utf8 chunkId).length ≤ 65535) (hspace : (utf8 space).length ≤ 65535) (htable : (utf8 table).length ≤ 65535)
    (hfit : ∀ e ∈ es, e.Fits) (hfooter : FooterFits c es)
    (happend : ChunkWriter.appendAll c es { chunkId, space, table } = .ok w)
    (hfinal : w.finalize c nowMs = .ok (file, header, footer)) :
    ChunkHeader.decode c file = .ok (header, header.encode.length) ∧
    (∃ body, decompressBody c file = .ok body ∧ decodeBodyEntries c body header.recordCount = .ok es) ∧
    decodeFooter c file = .ok footer ∧
    header.recordCount.toNat = es.length ∧
    (es ≠ [] → (∃ e ∈ es, header.keyMin = e.keyBytes) ∧ (∃ e ∈ es, header.keyMax = e.keyBytes) ∧
      ∀ e ∈ es, header.keyMin ≤ e.keyBytes ∧ e.keyBytes ≤ header.keyMax) := by
  obtain rfl := ChunkWriter.appendAll_new happend
  obtain ⟨compressed, fb, h⟩ := ChunkWriter.finalizes_of_finalize hfinal
  have hfb := h.footer_lt hfooter
  have hheader := h.header_fits hid hspace htable fun e he => (hfit e he).key
  refine ⟨?_, ⟨_, h.decompressBody hc hheader hfb, (decodeBodyEntries_iff _).2 hfit⟩, ?_, ?_, fun hne => ?_⟩
  · rw [h.file_eq, List.append_assoc, List.append_assoc]
    exact ChunkHeader.decode_encode c hheader _
  · rw [h.file_eq, decodeFooter_eq _ hfb]
    exact ChunkFooter.decode_encode hc h.encoded hfb
  · obtain ⟨keyIndex, hki, -⟩ := sampleKeys_ok c 0 0 es
    obtain ⟨bs, hbs, -⟩ := ChunkFooter.encode_length h.encoded
    have hlt := hfooter _ bs h.keyIndex hbs
    have hcount : es.length < 2 ^ 64 := by
      simp only [bloomLen, bloomBitsPerKey] at hlt
      omega
    rw [h.recordCount]
    exact (UInt64.toNat_ofNat').trans (Nat.mod_eq_of_lt hcount)
  · have hkeys : es.map ChunkEntry.keyBytes ≠ [] := by simpa using hne
    obtain ⟨hmin, hleast⟩ := leastKey_spec hkeys
    obtain ⟨hmax, hgreatest⟩ := greatestKey_spec hkeys
    obtain ⟨emin, hemin, heqmin⟩ := List.mem_map.1 hmin
    obtain ⟨emax, hemax, heqmax⟩ := List.mem_map.1 hmax
    refine ⟨⟨emin, hemin, h.keyMin.trans heqmin.symm⟩, ⟨emax, hemax, h.keyMax.trans heqmax.symm⟩, fun e he => ?_⟩
    rw [h.keyMin, h.keyMax]
    exact ⟨hleast _ (List.mem_map_of_mem he), hgreatest _ (List.mem_map_of_mem he)⟩

/-! ### Stored bodies -/

def indexEntryBytes (k : KeyIndexEntry) : Bytes :=
  leBytes 8 k.keyBytes.length ++ k.keyBytes ++ leBytes 8 k.bodyOffset.toNat ++ leBytes 8 k.commitVersion.toNat

def indexEntry : Decoder KeyIndexEntry := do
  let len ← readLe 8
  let keyBytes ← slice len
  let bodyOffset ← readLe 8
  let commitVersion ← readLe 8
  return ⟨keyBytes, UInt64.ofNat bodyOffset, UInt64.ofNat commitVersion⟩

def indexEntries : Decoder (List KeyIndexEntry) := do
  let n ← readLe 8
  indexEntry.times n

/-- A body stored as it is, the layout of `bincode` for the key index, and lengths for checksums. -/
def Codecs.stored : Codecs where
  zstdEncode := .ok
  zstdDecode := .ok
  bincodeSerialize keyIndex :=
    if keyIndex.length < 2 ^ 64 ∧ ∀ k ∈ keyIndex, k.keyBytes.length < 2 ^ 64 then
      .ok (leBytes 8 keyIndex.length ++ keyIndex.flatMap indexEntryBytes)
    else .error "length"
  bincodeDeserialize bs :=
    match indexEntries bs 0 with
    | .ok r => .ok r.1
    | .error _ => .error "truncated"
  crc32 bs := UInt32.ofNat bs.length
  xxh3 bs := UInt64.ofNat bs.length
  utf8Error _ := "invalid"
  allocates n := n < 2 ^ 40

theorem indexEntry_reads {k : KeyIndexEntry} (h : k.keyBytes.length < 2 ^ 64) :
    Reads indexEntry (indexEntryBytes k) k := by
  rw [indexEntryBytes, List.append_assoc, List.append_assoc]
  have hnum : ∀ {n : Nat}, n < 2 ^ 64 → Reads (readLe 8) (leBytes 8 n) n := fun hn => readLe_fits hn
  refine (hnum h).bind ((slice_reads _).bind ((hnum k.bodyOffset.toNat_lt).bind ?_))
  have hlast := (hnum k.commitVersion.toNat_lt).map
    (g := fun n => (⟨k.keyBytes, k.bodyOffset, UInt64.ofNat n⟩ : KeyIndexEntry))
  simpa using hlast

theorem FooterFits.of_eq {c : Codecs} {es : List ChunkEntry} {keyIndex : List KeyIndexEntry} {bs : Bytes}
    (hki : sampleKeys c 0 0 es = .ok keyIndex) (hbs : c.bincodeSerialize keyIndex = .ok bs)
    (h : 16 + bloomLen es.length bloomBitsPerKey + bs.length < 2 ^ 32) : FooterFits c es := by
  intro keyIndex' bs' hki' hbs'
  cases hki.symm.trans hki'
  cases hbs.symm.trans hbs'
  exact h

theorem Codecs.stored_lossless : Codecs.stored.Lossless where
  zstd _ _ h := congrArg Except.ok (Except.ok.inj h).symm
  bincode keyIndex bs h := by
    simp only [stored] at h
    split at h
    case isTrue hfit =>
      cases h
      have hread : Reads indexEntries (leBytes 8 keyIndex.length ++ keyIndex.flatMap indexEntryBytes) keyIndex :=
        (readLe_fits hfit.1).bind (Reads.times fun k hk => indexEntry_reads (hfit.2 k hk))
      have hstart := hread.start []
      rw [List.append_nil] at hstart
      simp only [stored, hstart]
    case isFalse => cases h

theorem ChunkWriter.finalize_stored (chunkId space table : String) (es : List ChunkEntry) (nowMs : Int64)
    (hlen : es.length < 2 ^ 64) (hkeys : ∀ e ∈ es, e.keyBytes.length < 2 ^ 64) :
    ∃ r, (ChunkWriter.of .stored chunkId space table es).finalize .stored nowMs = .ok r := by
  obtain ⟨keyIndex, hki, hkiLen, hkiKeys⟩ := sampleKeys_ok .stored 0 0 es
  have hserialize : ∃ bs, Codecs.stored.bincodeSerialize keyIndex = .ok bs := by
    refine ⟨_, if_pos ⟨by omega, fun k hk => ?_⟩⟩
    obtain ⟨e, he, hkey⟩ := hkiKeys k hk
    rw [hkey]
    exact hkeys e he
  obtain ⟨bs, hbs⟩ := hserialize
  have hof : (ChunkWriter.of .stored chunkId space table es).entries = es := rfl
  have hzstd : ∀ body, Codecs.stored.zstdEncode body = .ok body := fun _ => rfl
  simp only [finalize, hzstd, hof, hki, ChunkFooter.encode, hbs, bind, Except.bind, pure, Except.pure]
  exact ⟨_, rfl⟩

theorem footer_lost {es : List ChunkEntry} (hfit : ∀ e ∈ es, e.Fits) (hmany : 2 ^ 32 ≤ es.length)
    (hlen : es.length < 2 ^ 64) (nowMs : Int64) : ∃ w file header footer,
      ChunkWriter.appendAll .stored es { chunkId := "c", space := "s", table := "t" } = .ok w ∧
      w.finalize .stored nowMs = .ok (file, header, footer) ∧ decodeFooter .stored file ≠ .ok footer := by
  have hkeys : ∀ e ∈ es, e.keyBytes.length < 2 ^ 64 := fun e he => (hfit e he).key.trans_lt (by norm_num)
  obtain ⟨⟨file, header, footer⟩, hfinal⟩ :=
    ChunkWriter.finalize_stored "c" "s" "t" es nowMs hlen hkeys
  refine ⟨_, file, header, footer, ChunkWriter.appendAll_of .stored "c" "s" "t" es, hfinal, fun hdec => ?_⟩
  obtain ⟨compressed, fb, h⟩ := ChunkWriter.finalizes_of_finalize hfinal
  have hbloom : footer.bloom.length = bloomLen es.length bloomBitsPerKey := by
    rw [h.bloom, buildBloom_length]
    simp [ChunkWriter.of]
  have hlt := decodeFooter_bloom_lt hdec
  simp only [hbloom, bloomLen, bloomBitsPerKey] at hlt
  omega

def ChunkEntry.small : ChunkEntry where
  space := "s"
  table := "t"
  recordId := "r"
  value := [1, 2]
  commitVersion := 7
  txnId := "x"
  deleted := false
  contentType := some "a/b"
  userMeta := [("k", "v")]
  schemaVersion := 1
  walSeq := 7

def ChunkEntry.second : ChunkEntry := { small with recordId := "r2", value := [3] }

theorem ChunkEntry.pair_fits : ∀ e ∈ [small, second], e.Fits := by
  simp only [List.forall_mem_cons, List.not_mem_nil, false_implies, implies_true, and_true]
  constructor <;> refine ⟨by decide, by decide, by decide, by decide, by decide, ?_, by decide, by decide, by decide⟩
  all_goals
    rintro ct ⟨⟩
    decide

theorem ChunkEntry.small_fits : small.Fits := pair_fits small List.mem_cons_self

theorem footerFits_pair : FooterFits .stored [.small, .second] := by
  let k : KeyIndexEntry := ⟨utf8 "s\x00t\x00r", 0, 7⟩
  have hki : sampleKeys .stored 0 0 [.small, .second] = .ok [k] := by decide +kernel
  have hbs : Codecs.stored.bincodeSerialize [k] = .ok (leBytes 8 1 ++ indexEntryBytes k) := by decide +kernel
  exact .of_eq hki hbs (by decide +kernel)

/-- The lengths of the entries and names alone do not bound the footer. -/
theorem chunk_footer_lost : Codecs.stored.Lossless ∧ ∃ es : List ChunkEntry, (∀ e ∈ es, e.Fits) ∧
    ∃ w file header footer,
    ChunkWriter.appendAll .stored es { chunkId := "c", space := "s", table := "t" } = .ok w ∧
    w.finalize .stored 0 = .ok (file, header, footer) ∧ decodeFooter .stored file ≠ .ok footer := by
  have hall : ∀ e ∈ List.replicate (2 ^ 32) ChunkEntry.small, e.Fits := by
    intro e he
    rw [List.eq_of_mem_replicate he]
    exact ChunkEntry.small_fits
  refine ⟨Codecs.stored_lossless, List.replicate (2 ^ 32) .small, hall, footer_lost hall ?_ ?_ 0⟩
  · rw [List.length_replicate]
  · rw [List.length_replicate]
    norm_num

/-- The round trip of a file with two entries. -/
theorem chunk_round_trip_pair : ∃ w file header footer,
    ChunkWriter.appendAll .stored [.small, .second] { chunkId := "c", space := "s", table := "t" } = .ok w ∧
    w.finalize .stored 0 = .ok (file, header, footer) ∧
    ChunkHeader.decode .stored file = .ok (header, header.encode.length) ∧
    (∃ body, decompressBody .stored file = .ok body ∧
      decodeBodyEntries .stored body header.recordCount = .ok [.small, .second]) ∧
    decodeFooter .stored file = .ok footer ∧ header.recordCount.toNat = 2 := by
  obtain ⟨⟨file, header, footer⟩, hfinal⟩ :=
    ChunkWriter.finalize_stored "c" "s" "t" [.small, .second] 0 (by decide) (by decide)
  have happend : ChunkWriter.appendAll .stored [.small, .second] { chunkId := "c", space := "s", table := "t" } =
      .ok (.of .stored "c" "s" "t" [.small, .second]) := ChunkWriter.appendAll_of ..
  obtain ⟨hheader, hbody, hfooter, hcount, -⟩ := chunk_round_trip Codecs.stored_lossless (by decide) (by decide)
    (by decide) ChunkEntry.pair_fits footerFits_pair happend hfinal
  exact ⟨_, file, header, footer, happend, hfinal, hheader, hbody, hfooter, hcount⟩

/-! ### What the writer accepts -/

/-- A file of these entries: a new writer, one append for each, and the end of the file. -/
def writeChunk (c : Codecs) (chunkId space table : String) (nowMs : Int64) (es : List ChunkEntry) :
    Except XtableError (Bytes × ChunkHeader × ChunkFooter) := do
  let w ← ChunkWriter.appendAll c es { chunkId, space, table }
  w.finalize c nowMs

/-- The entries of a file. -/
def readChunk (c : Codecs) (r : Bytes × ChunkHeader × ChunkFooter) : Except Fault (List ChunkEntry) := do
  let body ← decompressBody c r.1
  decodeBodyEntries c body r.2.1.recordCount

/-- A file that the writer finishes gives its entries back exactly if they all fit. -/
theorem readChunk_iff_fits {c : Codecs} (hc : c.Lossless) (chunkId space table : String) (nowMs : Int64)
    (es : List ChunkEntry) (hid : (utf8 chunkId).length ≤ 65535) (hspace : (utf8 space).length ≤ 65535)
    (htable : (utf8 table).length ≤ 65535) (hkeys : ∀ e ∈ es, e.keyBytes.length ≤ 65535) (hfooter : FooterFits c es) :
    (∃ x, writeChunk c chunkId space table nowMs es = .error x) ∨
    ∃ r, writeChunk c chunkId space table nowMs es = .ok r ∧ (readChunk c r = .ok es ↔ ∀ e ∈ es, e.Fits) := by
  cases hwrite : writeChunk c chunkId space table nowMs es with
  | error x => exact .inl ⟨x, rfl⟩
  | ok r =>
    obtain ⟨file, header, footer⟩ := r
    refine .inr ⟨_, rfl, ?_⟩
    have hfinal : (ChunkWriter.of c chunkId space table es).finalize c nowMs = .ok (file, header, footer) := by
      rw [writeChunk, ChunkWriter.appendAll_of] at hwrite
      exact hwrite
    obtain ⟨compressed, fb, h⟩ := ChunkWriter.finalizes_of_finalize hfinal
    have hbody := h.decompressBody hc (h.header_fits hid hspace htable hkeys) (h.footer_lt hfooter)
    rw [readChunk, hbody]
    exact decodeBodyEntries_iff header.recordCount

theorem readChunk_pair : ∃ r, writeChunk .stored "c" "s" "t" 0 [.small, .second] = .ok r ∧
    readChunk .stored r = .ok [.small, .second] := by
  rcases readChunk_iff_fits Codecs.stored_lossless "c" "s" "t" 0 [.small, .second]
    (by decide) (by decide) (by decide) (by decide) footerFits_pair with ⟨x, hx⟩ | ⟨r, hr, hiff⟩
  · have hok : (writeChunk .stored "c" "s" "t" 0 [.small, .second]).toBool = true := by decide +kernel
    rw [hx] at hok
    cases hok
  · exact ⟨r, hr, hiff.2 ChunkEntry.pair_fits⟩

/-- An empty content type comes back as none, and a record id ends at its first NUL; no error is raised. -/
theorem readChunk_alters :
    let es := [{ ChunkEntry.small with contentType := some "" }, { ChunkEntry.small with recordId := "a\x00b" }]
    let read := [{ ChunkEntry.small with contentType := none }, { ChunkEntry.small with recordId := "a" }]
    (writeChunk .stored "c" "s" "t" 0 es).map (fun r => (readChunk .stored r).toOption) = .ok (some read) ∧ read ≠ es := by
  decide +kernel

end Xtable
