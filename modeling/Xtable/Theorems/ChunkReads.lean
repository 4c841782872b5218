import Xtable.Theorems.Flushed
import Xtable.Theorems.ColdReads
import Xtable.Theorems.Memtables

/-! The visible entries of a memtable become the body of one chunk, in the iteration order of its map. A read
    through the chunk's index row finds each of them at the snapshots that see it, and nothing else. -/

namespace Xtable

variable {e : MemEntry} {bits : Bytes} {rk : RecordKey}

/-! ## Bloom filters -/

/-- The bit at a position of a filter is set. -/
def BitSet (bits : Bytes) (pos : Nat) : Prop := ((bits[pos / 8]?).getD 0) &&& (1 <<< UInt8.ofNat (pos % 8)) ≠ 0

theorem bit_ne_zero (pos : Nat) : (1 : UInt8) <<< UInt8.ofNat (pos % 8) ≠ 0 := by
  have hlt : pos % 8 < 8 := Nat.mod_lt _ (by omega)
  generalize pos % 8 = k at hlt
  interval_cases k <;> decide

theorem or_and_ne_zero {x m n : UInt8} (h : x &&& n ≠ 0) : (x ||| m) &&& n ≠ 0 := by
  have hdistrib : (x ||| m) &&& n = (x &&& n) ||| (m &&& n) := by
    apply UInt8.toBitVec_inj.1
    simp only [UInt8.toBitVec_and, UInt8.toBitVec_or]
    ext i
    simp [Bool.and_or_distrib_right]
  rw [hdistrib]
  exact fun hzero => h (UInt8.or_eq_zero_iff.1 hzero).1

theorem BitSet.setBit {pos : Nat} (h : BitSet bits pos) (other : Nat) : BitSet (Xtable.setBit bits other) pos := by
  unfold BitSet Xtable.setBit at *
  rw [List.getElem?_modify]
  cases hget : bits[pos / 8]? with
  | none => simp [hget] at h
  | some x =>
    rw [hget] at h
    by_cases hbyte : other / 8 = pos / 8
    · simpa [hbyte] using or_and_ne_zero h
    · simpa [hbyte] using h

theorem bitSet_setBit {pos : Nat} (hlt : pos / 8 < bits.length) : BitSet (setBit bits pos) pos := by
  unfold BitSet setBit
  rw [List.getElem?_modify, List.getElem?_eq_getElem hlt]
  have hself : ∀ x m : UInt8, m ≠ 0 → (x ||| m) &&& m ≠ 0 := by
    intro x m hm
    have hswap : (x ||| m) &&& m = (m ||| x) &&& m := by rw [UInt8.or_comm]
    rw [hswap]
    exact or_and_ne_zero (by rwa [UInt8.and_self])
  simpa using hself _ _ (bit_ne_zero pos)

section Filter

variable {c : Codecs} {len : Nat}

/-- The two hashes of a key. -/
def bloomHashes (c : Codecs) (k : Bytes) : List UInt64 := [c.xxh3 k, c.xxh3 (leBytes 8 (c.xxh3 k).toNat)]

/-- A filter of `len` bytes with the bits of one more key. -/
def addKey (c : Codecs) (len : Nat) (bits k : Bytes) : Bytes :=
  (bloomHashes c k).foldl (fun bits h => setBit bits (h.toNat % (len * 8))) bits

/-- The filter of `len` bytes for these keys. -/
def fillBloom (c : Codecs) (keys : List Bytes) (len : Nat) : Bytes := keys.foldl (addKey c len) (List.replicate len 0)

theorem buildBloom_eq (c : Codecs) (keys : List Bytes) (n : Nat) :
    buildBloom c keys n = fillBloom c keys (bloomLen keys.length n) := rfl

theorem addKey_length (bits k : Bytes) : (addKey c len bits k).length = bits.length := by
  simp only [addKey, bloomHashes, List.foldl_cons, List.foldl_nil, setBit_length]

theorem foldl_addKey_length (keys : List Bytes) (bits : Bytes) : (keys.foldl (addKey c len) bits).length = bits.length := by
  induction keys generalizing bits with
  | nil => rfl
  | cons k keys ih => rw [List.foldl_cons, ih, addKey_length]

theorem fillBloom_length (c : Codecs) (keys : List Bytes) (len : Nat) : (fillBloom c keys len).length = len := by
  rw [fillBloom, foldl_addKey_length, List.length_replicate]

theorem BitSet.foldl_addKey {pos : Nat} (h : BitSet bits pos) (keys : List Bytes) :
    BitSet (keys.foldl (addKey c len) bits) pos := by
  induction keys generalizing bits with
  | nil => exact h
  | cons k keys ih => exact ih ((h.setBit _).setBit _)

theorem bloomPos_lt (hlen : 0 < len) (h : UInt64) : h.toNat % (len * 8) / 8 < len := by
  have hlt : h.toNat % (len * 8) < len * 8 := Nat.mod_lt _ (by omega)
  omega

theorem bitSet_addKey {k : Bytes} (hlen : 0 < len) (hbits : bits.length = len) {h : UInt64} (hh : h ∈ bloomHashes c k) :
    BitSet (addKey c len bits k) (h.toNat % (len * 8)) := by
  rcases List.mem_cons.1 hh with rfl | hh
  · exact (bitSet_setBit ((bloomPos_lt hlen _).trans_eq hbits.symm)).setBit _
  · obtain rfl := List.mem_singleton.1 hh
    exact bitSet_setBit ((bloomPos_lt hlen _).trans_eq ((setBit_length _ _).trans hbits).symm)

theorem bitSet_foldl_addKey {keys : List Bytes} {key : Bytes} (hlen : 0 < len) (hbits : bits.length = len)
    (hkey : key ∈ keys) {h : UInt64} (hh : h ∈ bloomHashes c key) :
    BitSet (keys.foldl (addKey c len) bits) (h.toNat % (len * 8)) := by
  induction keys generalizing bits with
  | nil => exact absurd hkey List.not_mem_nil
  | cons k keys ih =>
    rcases List.mem_cons.1 hkey with rfl | hkey
    · exact (bitSet_addKey hlen hbits hh).foldl_addKey keys
    · exact ih ((addKey_length bits k).trans hbits) hkey

theorem bloomMayContain_fillBloom (c : Codecs) {keys : List Bytes} {key : Bytes} (hlen : 0 < len) (hkey : key ∈ keys) :
    bloomMayContain c (fillBloom c keys len) key = true := by
  unfold bloomMayContain
  split
  · rfl
  · rw [fillBloom_length, List.all_eq_true]
    intro h hh
    exact decide_eq_true (bitSet_foldl_addKey hlen List.length_replicate hkey hh)

end Filter

theorem bloomLen_pos (n bitsPerKey : Nat) : 0 < bloomLen n bitsPerKey := by
  unfold bloomLen
  omega

theorem bloomMayContain_buildBloom (c : Codecs) {keys : List Bytes} {key : Bytes} (hkey : key ∈ keys) (n : Nat) :
    bloomMayContain c (buildBloom c keys n) key = true := by
  rw [buildBloom_eq]
  exact bloomMayContain_fillBloom c (bloomLen_pos _ _) hkey

/-! ## The file of a flush -/

/-- The visible entries of a memtable fit the fields of the format, and so does the footer for them. -/
structure Flush.Fits (c : Codecs) (chunkId : String) (entries : List MemEntry) : Prop where
  chunkId : (utf8 chunkId).length ≤ 65535
  widths : ∀ e ∈ entries, ∀ v : Nat, e.commitVersion = v → v < 2 ^ 64 ∧ e.schemaVersion < 2 ^ 32
  fields : ∀ e ∈ entries.filterMap chunkEntry, e.Fits
  footer : FooterFits c (entries.filterMap chunkEntry)

/-- The file, header and footer of a body of these entries, in this order; the first names the chunk's table. -/
def Flush.FileOf (c : Codecs) (chunkId : String) (nowMs : Int64) (es : List ChunkEntry) (file : Bytes) (header : ChunkHeader)
    (footer : ChunkFooter) : Prop :=
  ∃ e ∈ es.head?, ∃ compressed footerBytes,
    (ChunkWriter.of c chunkId e.space e.table es).Finalizes c nowMs file header footer compressed footerBytes

variable {c : Codecs} {chunkId : String} {nowMs : Int64} {entries : List MemEntry} {file : Bytes} {header : ChunkHeader}
  {footer : ChunkFooter} {mt : MemTable}

theorem Flush.chunkFile_none (h : chunkFile c chunkId nowMs entries = .ok none) : entries.filterMap chunkEntry = [] := by
  unfold chunkFile at h
  split at h
  case h_1 hnil => exact hnil
  case h_2 e es hes =>
    rw [ChunkWriter.appendAll_eq] at h
    simp only [bind, Except.bind] at h
    split at h
    · cases h
    · cases h

theorem Flush.chunkFile_some (h : chunkFile c chunkId nowMs entries = .ok (some (file, header, footer))) :
    FileOf c chunkId nowMs (entries.filterMap chunkEntry) file header footer := by
  unfold chunkFile at h
  split at h
  case h_1 => cases h
  case h_2 e es hes =>
    rw [ChunkWriter.appendAll_of] at h
    simp only [bind, Except.bind] at h
    split at h
    case h_1 => cases h
    case h_2 out hfinal =>
      cases Except.ok.inj h
      obtain ⟨compressed, footerBytes, hfinalizes⟩ := ChunkWriter.finalizes_of_finalize hfinal
      rw [hes]
      exact ⟨e, rfl, compressed, footerBytes, hfinalizes⟩

theorem ChunkEntry.Fits.names {e : ChunkEntry} (h : e.Fits) : (utf8 e.space).length ≤ 65535 ∧ (utf8 e.table).length ≤ 65535 := by
  have hkey := h.key
  simp only [ChunkEntry.keyBytes, composeKeyBytes, List.length_append, List.length_cons] at hkey
  omega

namespace Flush.FileOf

variable {es : List ChunkEntry}

theorem decodes (h : FileOf c chunkId nowMs es file header footer) (hzstd : c.Unzips)
    (hid : (utf8 chunkId).length ≤ 65535) (hfits : ∀ e ∈ es, e.Fits) (hfooter : FooterFits c es) (n : UInt64) :
    decompressBody c file = .ok (bodyBytes c es) ∧ decodeBodyEntries c (bodyBytes c es) n = .ok es := by
  obtain ⟨e, he, compressed, footerBytes, hfinal⟩ := h
  have hmem : e ∈ es := List.mem_of_mem_head? he
  obtain ⟨hspace, htable⟩ := (hfits e hmem).names
  have hheader := hfinal.header_fits hid hspace htable fun e he => (hfits e he).key
  refine ⟨?_, (decodeBodyEntries_iff n).2 hfits⟩
  rw [hfinal.file_eq]
  exact decompressBody_eq hheader (hfinal.footer_lt hfooter) (hzstd _ _ hfinal.zstd)

theorem bloom (h : FileOf c chunkId nowMs es file header footer) {e : ChunkEntry} (he : e ∈ es) :
    bloomMayContain c footer.bloom e.keyBytes = true := by
  obtain ⟨e₀, -, compressed, footerBytes, hfinal⟩ := h
  rw [hfinal.bloom]
  exact bloomMayContain_buildBloom c (List.mem_map_of_mem he) _

end Flush.FileOf

/-! ## Memtables as they are built -/

/-- A memtable that was filled by puts and publications. -/
inductive MemTable.Built : MemTable → Prop where
  | new (id : Nat) : Built { id := id }
  | put {mt : MemTable} (h : Built mt) (e : MemEntry) : Built (mt.putInvisible e)
  | publish {mt : MemTable} (h : Built mt) (key : RecordKey) (v : Nat) : Built (mt.publish key v)

/-- The same, with any arguments of `publish`. -/
inductive MemTable.Reached : MemTable → Prop where
  | new (id : Nat) : Reached { id := id }
  | put {mt : MemTable} (h : Reached mt) (e : MemEntry) : Reached (mt.putInvisible e)
  | publish {mt : MemTable} (h : Reached mt) (key : RecordKey) (v : WithTop Nat) : Reached (mt.publish key v)

theorem MemTable.Built.reached (h : mt.Built) : mt.Reached := by
  induction h with
  | new id => exact .new id
  | put _ e ih => exact ih.put e
  | publish _ key v ih => exact ih.publish key v

theorem MemTable.Reached.entry (h : mt.Reached) (he : mt.map[rk]? = some e) :
    e.key = rk ∧ mt.earliestSeq ≤ (e.walSeq : WithTop Nat) ∧ e.walSeq ≤ mt.latestSeq := by
  induction h generalizing rk e with
  | new id => simp at he
  | put h e₀ ih =>
    simp only [MemTable.putInvisible, Table.get_insert] at he ⊢
    split at he
    case isTrue hkey =>
      cases he
      exact ⟨hkey, min_le_right _ _, le_max_right _ _⟩
    case isFalse =>
      obtain ⟨hkey, hearliest, hlatest⟩ := ih he
      exact ⟨hkey, (min_le_left _ _).trans hearliest, hlatest.trans (le_max_left _ _)⟩
  | @publish mt h key v ih =>
    have hseq : (mt.publish key v).earliestSeq = mt.earliestSeq ∧ (mt.publish key v).latestSeq = mt.latestSeq := by
      unfold MemTable.publish
      split <;> exact ⟨rfl, rfl⟩
    rw [hseq.1, hseq.2]
    rw [MemTableSet.get_publish] at he
    split at he
    case isTrue =>
      obtain ⟨e', he', rfl⟩ := Option.map_eq_some_iff.1 he
      obtain ⟨hkey, hearliest, hlatest⟩ := ih he'
      exact ⟨hkey, hearliest, hlatest⟩
    case isFalse => exact ih he

theorem MemTable.Reached.range (h : mt.Reached) {v : Nat} (he : mt.map[rk]? = some e)
    (hv : e.commitVersion = (v : WithTop Nat)) : mt.versionMin ≤ (v : WithTop Nat) ∧ v ≤ mt.versionMax := by
  induction h generalizing rk e with
  | new id => simp at he
  | put h e₀ ih =>
    simp only [MemTable.putInvisible, Table.get_insert] at he ⊢
    split at he
    case isTrue =>
      cases he
      rw [hv]
      exact ⟨min_le_right _ _, le_max_right _ _⟩
    case isFalse =>
      obtain ⟨hmin, hmax⟩ := ih he hv
      refine ⟨(min_le_left _ _).trans hmin, ?_⟩
      split
      · exact hmax.trans (le_max_left _ _)
      · exact hmax
  | @publish mt h key v' ih =>
    have hrange : mt.versionMin ≥ (mt.publish key v').versionMin ∧ mt.versionMax ≤ (mt.publish key v').versionMax := by
      unfold MemTable.publish
      split
      · exact ⟨min_le_left _ _, le_max_left _ _⟩
      · exact ⟨le_rfl, le_rfl⟩
    rw [MemTableSet.get_publish] at he
    split at he
    case isTrue hkey =>
      obtain ⟨e', he', rfl⟩ := Option.map_eq_some_iff.1 he
      obtain rfl : v' = v := hv
      subst hkey
      unfold MemTable.publish
      rw [he']
      exact ⟨min_le_right _ _, le_max_right _ _⟩
    case isFalse =>
      obtain ⟨hmin, hmax⟩ := ih he hv
      exact ⟨hrange.1.trans hmin, hmax.trans hrange.2⟩

theorem MemTable.Built.entry (h : mt.Built) (he : mt.map[rk]? = some e) :
    e.key = rk ∧ mt.earliestSeq ≤ (e.walSeq : WithTop Nat) ∧ e.walSeq ≤ mt.latestSeq := h.reached.entry he

theorem MemTable.mem_entries : e ∈ mt.entries ↔ ∃ rk : RecordKey, mt.map[rk]? = some e := by
  simp only [MemTable.entries, List.mem_map]
  constructor
  · rintro ⟨⟨rk, e'⟩, hmem, rfl⟩
    exact ⟨rk, Table.mem_toList.1 hmem⟩
  · rintro ⟨rk, he⟩
    exact ⟨(rk, e), Table.mem_toList.2 he, rfl⟩

/-! ## Reading a flushed memtable -/

/-- The answer of a chunk for a memtable entry. -/
def MemEntry.chunkAnswer (e : MemEntry) (v : Nat) : ReadResult :=
  ⟨e.value, v, e.txnId, e.deleted, e.contentType, e.userMeta, e.schemaVersion, if e.deleted then .notFound else .chunk⟩

theorem MemTable.Built.chunkEntry_of_record (h : mt.Built) (hperm : entries.Perm mt.entries) {ce : ChunkEntry}
    (hce : ce ∈ entries.filterMap Flush.chunkEntry) :
    ∃ e, mt.map[Rebuild.recordOf ce]? = some e ∧ Flush.chunkEntry e = some ce := by
  obtain ⟨e, he, hentry⟩ := List.mem_filterMap.1 hce
  obtain ⟨rk, hget⟩ := MemTable.mem_entries.1 (hperm.mem_iff.1 he)
  have hkey := (h.entry hget).1
  have hrecord : Rebuild.recordOf ce = rk := by
    unfold Flush.chunkEntry at hentry
    split at hentry
    · cases hentry
    · cases hentry
      exact hkey
  exact ⟨e, hrecord ▸ hget, hentry⟩

theorem Flush.chunkEntry_eq_some {ce : ChunkEntry} (h : chunkEntry e = some ce) :
    ∃ v : Nat, e.commitVersion = v ∧ ce = ⟨e.key.1, e.key.2.1, e.key.2.2, e.value, UInt64.ofNat v, e.txnId, e.deleted,
      e.contentType, e.userMeta, UInt32.ofNat e.schemaVersion, UInt64.ofNat e.walSeq⟩ := by
  unfold chunkEntry at h
  split at h
  case h_1 => cases h
  case h_2 v hv => exact ⟨v, hv, (Option.some.inj h).symm⟩

theorem Flush.chunkResult_eq {ce : ChunkEntry} {v : Nat} (h : chunkEntry e = some ce) (hv : e.commitVersion = v)
    (hwidth : v < 2 ^ 64 ∧ e.schemaVersion < 2 ^ 32) : Read.chunkResult ce = e.chunkAnswer v := by
  obtain ⟨v', hv', rfl⟩ := chunkEntry_eq_some h
  obtain rfl : v' = v := WithTop.coe_injective (hv'.symm.trans hv)
  simpa [Read.chunkResult, MemEntry.chunkAnswer] using hwidth

theorem MemTable.Built.chunk_answer (h : mt.Built) (hperm : entries.Perm mt.entries)
    (hwidths : ∀ e ∈ entries, ∀ v : Nat, e.commitVersion = v → v < 2 ^ 64 ∧ e.schemaVersion < 2 ^ 32) (rk : RecordKey)
    (snapshot : Nat) :
    let answer : Except Fault (Option ReadResult) := .ok ((Read.maxByKey (·.commitVersion.toNat)
      ((entries.filterMap Flush.chunkEntry).filter (Read.chunkMatches rk snapshot))).map Read.chunkResult)
    (∀ e (v : Nat), mt.map[rk]? = some e → e.commitVersion = v →
      answer = .ok (if v ≤ snapshot then some (e.chunkAnswer v) else none)) ∧
    ((∀ e, mt.map[rk]? = some e → e.commitVersion = ⊤) → answer = .ok none) := by
  -- a matching entry is that of the record, at its version
  have hmatch : ∀ ce ∈ (entries.filterMap Flush.chunkEntry).filter (Read.chunkMatches rk snapshot),
      ∃ e, mt.map[rk]? = some e ∧ Flush.chunkEntry e = some ce ∧ ce.commitVersion.toNat ≤ snapshot := by
    intro ce hce
    obtain ⟨hmem, hmatches⟩ := List.mem_filter.1 hce
    obtain ⟨hrecord, hvisible⟩ := chunkMatches_iff.1 hmatches
    obtain ⟨e, he, hentry⟩ := h.chunkEntry_of_record hperm hmem
    exact ⟨e, hrecord ▸ he, hentry, hvisible⟩
  refine ⟨fun e v he hv => ?_, fun hinvisible => ?_⟩
  · have hmem : e ∈ entries := hperm.mem_iff.2 (MemTable.mem_entries.2 ⟨rk, he⟩)
    have hwidth := hwidths e hmem v hv
    obtain ⟨ce, hce⟩ : ∃ ce, Flush.chunkEntry e = some ce := by simp [Flush.chunkEntry, hv]
    have hversion : ce.commitVersion.toNat = v := congrArg ReadResult.commitVersion (Flush.chunkResult_eq hce hv hwidth)
    by_cases hle : v ≤ snapshot
    · have hrecord : Rebuild.recordOf ce = rk := by
        obtain ⟨v', -, rfl⟩ := Flush.chunkEntry_eq_some hce
        exact (h.entry he).1
      have hhit : Read.maxByKey (·.commitVersion.toNat) ((entries.filterMap Flush.chunkEntry).filter
          (Read.chunkMatches rk snapshot)) = some ce := by
        refine maxByKey_eq_some (List.mem_filter.2 ⟨List.mem_filterMap.2 ⟨e, hmem, hce⟩,
          chunkMatches_iff.2 ⟨hrecord, hversion ▸ hle⟩⟩) fun ce' hce' => ?_
        obtain ⟨e', he', hentry', -⟩ := hmatch ce' hce'
        cases he.symm.trans he'
        cases hce.symm.trans hentry'
        exact ⟨le_rfl, fun _ => rfl⟩
      rw [if_pos hle, hhit, Option.map_some, Flush.chunkResult_eq hce hv hwidth]
    · have hnone : (entries.filterMap Flush.chunkEntry).filter (Read.chunkMatches rk snapshot) = [] := by
        refine List.eq_nil_iff_forall_not_mem.2 fun ce' hce' => ?_
        obtain ⟨e', he', hentry', hvisible⟩ := hmatch ce' hce'
        cases he.symm.trans he'
        cases hce.symm.trans hentry'
        exact hle (hversion ▸ hvisible)
      rw [if_neg hle, hnone]
      rfl
  · have hnone : (entries.filterMap Flush.chunkEntry).filter (Read.chunkMatches rk snapshot) = [] := by
      refine List.eq_nil_iff_forall_not_mem.2 fun ce hce => ?_
      obtain ⟨e, he, hentry, -⟩ := hmatch ce hce
      obtain ⟨v, hv, -⟩ := Flush.chunkEntry_eq_some hentry
      exact WithTop.coe_ne_top (hv.symm.trans (hinvisible e he))
    rw [hnone]
    rfl

theorem readFromChunk_file {store : Store} {backend : Backend} {snapshot : Nat} {idx : RecordIndexEntry}
    {chunk : ChunkIndexEntry} {es : List ChunkEntry} (hfile : Flush.FileOf c chunkId nowMs es file header footer)
    (hdecodes : ∀ n, decompressBody c file = .ok (bodyBytes c es) ∧ decodeBodyEntries c (bodyBytes c es) n = .ok es)
    (hrow : store.getChunkIndex idx.chunkId = some chunk) (hbloom : chunk.bloom = some footer.bloom)
    (hobject : backend.objects[chunk.s3Key]? = some file) :
    Read.readFromChunk c store backend rk snapshot idx =
      .ok ((Read.maxByKey (·.commitVersion.toNat) (es.filter (Read.chunkMatches rk snapshot))).map Read.chunkResult) := by
  obtain ⟨hbody, hentries⟩ := hdecodes (Read.expectedCount chunk)
  unfold Read.readFromChunk Read.lookupChunkForRecord
  rw [hrow]
  simp only [hbloom, Option.any_some]
  split
  case isTrue hmiss =>
    have hnone : es.filter (Read.chunkMatches rk snapshot) = [] := by
      refine List.filter_eq_nil_iff.2 fun e he hmatch => ?_
      have hrecord : Rebuild.recordOf e = rk := (chunkMatches_iff.1 hmatch).1
      have hhit := hfile.bloom he
      rw [ChunkEntry.keyBytes] at hhit
      rw [← hrecord] at hmiss
      simp only [Rebuild.recordOf, hhit, Bool.not_true, Bool.false_eq_true] at hmiss
    rw [hnone]
    rfl
  case isFalse =>
    simp only [hobject, hbody, hentries, bind, Except.bind, pure, Except.pure]

/-- A flushed memtable reads back exactly: through its chunk every visible entry is answered at the snapshots that see it,
with all its fields, and nothing else is. -/
theorem flushed_memtable_reads_back
    (hzstd : ∀ body compressed, c.zstdEncode body = .ok compressed → c.zstdDecode compressed = .ok body)
    (hbuilt : mt.Built) (hseq : ∀ e ∈ mt.entries, 1 ≤ e.walSeq) (hperm : entries.Perm mt.entries)
    (hfits : Flush.Fits c chunkId entries) {w w' : World} (hfresh : w.store.getChunkIndex chunkId = none)
    (hflush : (Flush.flushOne c chunkId nowMs entries mt).run World.exec w = (.ok (), w'))
    {idx : RecordIndexEntry} (hidx : idx.chunkId = chunkId) (etag notFound : String → String) (rk : RecordKey) (snapshot : Nat) :
    (∀ e (v : Nat), mt.map[rk]? = some e → e.commitVersion = v →
      Read.readFromChunk c w'.store ⟨w'.bucket, etag, notFound⟩ rk snapshot idx =
        .ok (if v ≤ snapshot then some (e.chunkAnswer v) else none)) ∧
    ((∀ e, mt.map[rk]? = some e → e.commitVersion = ⊤) →
      Read.readFromChunk c w'.store ⟨w'.bucket, etag, notFound⟩ rk snapshot idx = .ok none) := by
  let es := entries.filterMap Flush.chunkEntry
  rw [flushOne_run] at hflush
  have hmiss : w'.store.getChunkIndex chunkId = none →
      Read.readFromChunk c w'.store ⟨w'.bucket, etag, notFound⟩ rk snapshot idx = .ok none := by
    intro hnone
    simp only [Read.readFromChunk, Read.lookupChunkForRecord, hidx, hnone]
  -- with a visible entry there is something to write
  have hvisible : ∀ e (v : Nat), mt.map[rk]? = some e → e.commitVersion = v →
      ¬ (mt.earliestSeq = ⊤ ∨ mt.latestSeq = 0) ∧ ∃ ce ∈ es, Flush.chunkEntry e = some ce := by
    intro e v he hv
    have hmem : e ∈ mt.entries := MemTable.mem_entries.2 ⟨rk, he⟩
    obtain ⟨-, hearliest, hlatest⟩ := hbuilt.entry he
    have hpos := hseq e hmem
    refine ⟨?_, ?_⟩
    · rintro (htop | hzero)
      · rw [htop] at hearliest
        exact absurd hearliest (by simp)
      · omega
    · have hentry : ∃ ce, Flush.chunkEntry e = some ce := by
        simp [Flush.chunkEntry, hv]
      obtain ⟨ce, hce⟩ := hentry
      exact ⟨ce, List.mem_filterMap.2 ⟨e, hperm.mem_iff.2 hmem, hce⟩, hce⟩
  split at hflush
  case isTrue hempty =>
    obtain rfl := (Prod.mk.inj hflush).2
    exact ⟨fun e v he hv => absurd hempty (hvisible e v he hv).1, fun _ => hmiss hfresh⟩
  case isFalse =>
    split at hflush
    case h_1 => cases hflush
    case h_2 hfile =>
      obtain rfl := (Prod.mk.inj hflush).2
      refine ⟨fun e v he hv => ?_, fun _ => hmiss hfresh⟩
      obtain ⟨-, ce, hce, -⟩ := hvisible e v he hv
      have hnone : es = [] := Flush.chunkFile_none hfile
      rw [hnone] at hce
      cases hce
    case h_3 file header footer hfile =>
      obtain rfl := (Prod.mk.inj hflush).2
      have hfileOf := Flush.chunkFile_some hfile
      have hrow : (w.flushed c chunkId mt entries file header footer).store.getChunkIndex idx.chunkId =
          some (Flush.indexEntry c chunkId mt file header footer) := by
        rw [Store.getChunkIndex, hidx]
        simp [World.flushed, chunkIndex_flushed]
      have hobject : (⟨(w.flushed c chunkId mt entries file header footer).bucket, etag, notFound⟩ : Backend).objects[
          (Flush.indexEntry c chunkId mt file header footer).s3Key]? = some file := by
        simp [World.flushed, Flush.indexEntry]
      rw [readFromChunk_file hfileOf (hfileOf.decodes hzstd hfits.chunkId hfits.fields hfits.footer) hrow rfl hobject]
      exact hbuilt.chunk_answer hperm hfits.widths rk snapshot

def MemEntry.small : MemEntry := ⟨("s", "t", "r"), [1, 2], (7 : Nat), "x", false, some "a/b", [("k", "v")], 1, 7, 2⟩

def MemEntry.second : MemEntry := { MemEntry.small with key := ("s", "t", "r2"), value := [3] }

def twoRecords : MemTable := (({ id := 0 } : MemTable).putInvisible .small).putInvisible .second

theorem flushed_memtable_reads_back_two : ∃ w',
    (Flush.flushOne .stored "c" 0 [.small, .second] twoRecords).run World.exec {} = (.ok (), w') ∧
    Read.readFromChunk .stored w'.store ⟨w'.bucket, id, id⟩ ("s", "t", "r2") 9 ⟨7, false, "c", 1, "x"⟩ =
      .ok (some (MemEntry.second.chunkAnswer 7)) ∧
    Read.readFromChunk .stored w'.store ⟨w'.bucket, id, id⟩ ("s", "t", "r") 6 ⟨7, false, "c", 1, "x"⟩ = .ok none ∧
    Read.readFromChunk .stored w'.store ⟨w'.bucket, id, id⟩ ("s", "t", "q") 9 ⟨7, false, "c", 1, "x"⟩ = .ok none := by
  have hperm : [MemEntry.small, .second].Perm twoRecords.entries := by decide +kernel
  have hvisible : [MemEntry.small, .second].filterMap Flush.chunkEntry = [ChunkEntry.small, .second] := by decide +kernel
  have hfits : Flush.Fits .stored "c" [.small, .second] := by
    refine ⟨by decide, fun e he v hv => ?_, fun e he => ChunkEntry.pair_fits e (hvisible ▸ he), hvisible ▸ footerFits_pair⟩
    have he : e = .small ∨ e = .second := by simpa using he
    rcases he with rfl | rfl <;> obtain rfl : 7 = v := WithTop.coe_injective hv <;> decide
  have hok : ((Flush.flushOne .stored "c" 0 [.small, .second] twoRecords).run World.exec {}).1 = .ok () := by decide +kernel
  have hidx : (⟨7, false, "c", 1, "x"⟩ : RecordIndexEntry).chunkId = "c" := rfl
  have hread := fun rk snapshot => flushed_memtable_reads_back Codecs.stored_lossless.zstd (.put (.put (.new 0) .small) .second)
    (by decide +kernel) hperm hfits (w := {}) rfl (Prod.ext hok rfl) hidx id id rk snapshot
  exact ⟨_, Prod.ext hok rfl, (hread _ 9).1 .second 7 (by decide +kernel) rfl, (hread _ 6).1 .small 7 (by decide +kernel) rfl,
    (hread ("s", "t", "q") 9).2 (by decide +kernel)⟩

/-! ## The order of a body -/

/-- The body of a file holds these entries, in this order, and its footer samples them. -/
def Flush.BodyOf (c : Codecs) (file : Bytes) (header : ChunkHeader) (footer : ChunkFooter) (es : List ChunkEntry) : Prop :=
  ∃ compressed footerBytes, c.zstdEncode (bodyBytes c es) = .ok compressed ∧ sampleKeys c 0 0 es = .ok footer.keyIndex ∧
    file = header.encode ++ compressed ++ footerBytes ++ leBytes 4 footerBytes.length

theorem Flush.FileOf.bodyOf {es : List ChunkEntry} (h : FileOf c chunkId nowMs es file header footer) :
    BodyOf c file header footer es := by
  obtain ⟨e, -, compressed, footerBytes, hfinal⟩ := h
  exact ⟨compressed, footerBytes, hfinal.zstd, hfinal.keyIndex, hfinal.file_eq⟩

theorem sampleKeys_sublist {i offset : Nat} {es : List ChunkEntry} {keyIndex : List KeyIndexEntry}
    (h : sampleKeys c i offset es = .ok keyIndex) :
    (keyIndex.map (·.keyBytes)).Sublist (es.map ChunkEntry.keyBytes) := by
  induction es generalizing i offset keyIndex with
  | nil =>
    cases h
    exact .slnil
  | cons e es ih =>
    have hlen : encodedEntryLen c e = .ok (entryBytes c e).length := by
      rw [encodedEntryLen, encodeEntryInto_eq]
      rfl
    rw [sampleKeys, hlen] at h
    cases hrest : sampleKeys c (i + 1) (offset + (entryBytes c e).length) es with
    | error x =>
      simp only [bind, Except.bind, hrest] at h
      cases h
    | ok rest =>
      simp only [bind, Except.bind, hrest] at h
      split at h
      · cases h
        exact (ih hrest).cons_cons _
      · cases h
        exact (ih hrest).cons _

/-- The body that a flush writes is in ascending order, so is the sampled key index, and every other iteration order
gives the same body. -/
structure Flush.SortedBody (c : Codecs) (mt : MemTable) (entries : List MemEntry) : Prop where
  keys : ((entries.filterMap chunkEntry).map ChunkEntry.keyBytes).Pairwise (· < ·)
  keyIndex : ∀ keyIndex, sampleKeys c 0 0 (entries.filterMap chunkEntry) = .ok keyIndex →
    (keyIndex.map (·.keyBytes)).Pairwise (· < ·)
  unique : ∀ entries' : List MemEntry, entries'.Perm mt.entries →
    bodyBytes c (entries'.filterMap chunkEntry) = bodyBytes c (entries.filterMap chunkEntry)

theorem length_le_one_of_ascending {l : List Bytes} (h : l.Pairwise (· < ·)) (hrev : l.reverse.Pairwise (· < ·)) :
    l.length ≤ 1 := by
  rcases l with _ | ⟨a, _ | ⟨b, l⟩⟩
  · exact Nat.zero_le 1
  · exact le_rfl
  · have hab : a < b := List.rel_of_pairwise_cons h List.mem_cons_self
    have hba : b < a := List.rel_of_pairwise_cons (List.pairwise_reverse.1 hrev) List.mem_cons_self
    exact absurd hab (List.lt_asymm hba)

/-- The file of a flush holds the visible entries in the order in which the map is iterated. So the body is sorted in every
iteration order, and one and the same, exactly if at most one entry is visible. -/
theorem flushed_body_sorted (c : Codecs) (mt : MemTable) :
    (∀ chunkId nowMs entries file header footer,
      Flush.chunkFile c chunkId nowMs entries = .ok (some (file, header, footer)) →
        Flush.BodyOf c file header footer (entries.filterMap Flush.chunkEntry)) ∧
    ((∀ entries, entries.Perm mt.entries → Flush.SortedBody c mt entries) ↔
      (mt.entries.filterMap Flush.chunkEntry).length ≤ 1) := by
  refine ⟨fun _ _ _ _ _ _ hfile => (Flush.chunkFile_some hfile).bodyOf, fun hsorted => ?_, fun hone entries hperm => ?_⟩
  · -- the map may be iterated in either direction
    have hkeys := (hsorted _ (.refl _)).keys
    have hrev := (hsorted _ (List.reverse_perm _)).keys
    rw [List.filterMap_reverse, List.map_reverse] at hrev
    simpa using length_le_one_of_ascending hkeys hrev
  · have hshape : entries.filterMap Flush.chunkEntry = [] ∨ ∃ e, entries.filterMap Flush.chunkEntry = [e] := by
      rw [← (hperm.filterMap Flush.chunkEntry).length_eq, Nat.le_one_iff_eq_zero_or_eq_one, List.length_eq_zero_iff,
        List.length_eq_one_iff] at hone
      exact hone
    have hkeys : ((entries.filterMap Flush.chunkEntry).map ChunkEntry.keyBytes).Pairwise (· < ·) := by
      rcases hshape with hnone | ⟨e, hone⟩
      · simp [hnone]
      · simp [hone]
    refine ⟨hkeys, fun keyIndex hsample => hkeys.sublist (sampleKeys_sublist hsample), fun entries' hother => ?_⟩
    have hsame := (hother.trans hperm.symm).filterMap Flush.chunkEntry
    rcases hshape with hnone | ⟨e, hone⟩
    · rw [hnone] at hsame ⊢
      rw [hsame.eq_nil]
    · rw [hone] at hsame ⊢
      rw [List.perm_singleton.1 hsame]

theorem Flush.chunkFile_of_any {p : Bytes × ChunkHeader × ChunkFooter → Bool}
    (h : ((chunkFile c chunkId nowMs entries).toOption.bind id).any p = true) :
    ∃ out, chunkFile c chunkId nowMs entries = .ok (some out) ∧ p out = true := by
  cases hout : chunkFile c chunkId nowMs entries with
  | error x =>
    rw [hout] at h
    cases h
  | ok out =>
    rw [hout] at h
    cases out with
    | none => cases h
    | some out => exact ⟨out, rfl, h⟩

/-- The file that a flush writes in an iteration order, decoded. -/
def flushedBody (entries : List MemEntry) : Option (List Bytes × Bytes) := do
  let (file, header, _) ← (Flush.chunkFile .stored "c" 0 entries).toOption.bind id
  let body ← (decompressBody .stored file).toOption
  let es ← (decodeBodyEntries .stored body header.recordCount).toOption
  return (es.map ChunkEntry.keyBytes, body)

/-- A memtable of two records, iterated from the greater key on, gives a body in descending order, and another one than
in the order of the keys. -/
theorem flushed_body_unsorted : twoRecords.Built ∧ [MemEntry.small, .second].Perm twoRecords.entries ∧
    [MemEntry.second, .small].Perm twoRecords.entries ∧ ∃ keys body keys' body',
      flushedBody [.small, .second] = some (keys, body) ∧ flushedBody [.second, .small] = some (keys', body') ∧
      body ≠ body' ∧ ¬ keys'.Pairwise (· < ·) := by
  refine ⟨.put (.put (.new 0) _) _, by decide +kernel, by decide +kernel, ?_⟩
  have hfirst : (flushedBody [.small, .second]).isSome = true := by decide +kernel
  have hsecond : (flushedBody [.second, .small]).isSome = true := by decide +kernel
  obtain ⟨⟨keys, body⟩, hkeys⟩ := Option.isSome_iff_exists.1 hfirst
  obtain ⟨⟨keys', body'⟩, hkeys'⟩ := Option.isSome_iff_exists.1 hsecond
  refine ⟨keys, body, keys', body', hkeys, hkeys', ?_, ?_⟩
  · have hne : (flushedBody [.small, .second]).map (·.2) ≠ (flushedBody [.second, .small]).map (·.2) := by decide +kernel
    rw [hkeys, hkeys'] at hne
    exact fun heq => hne (congrArg some heq)
  · have hdesc : ¬ (((flushedBody [.second, .small]).map (·.1)).getD []).Pairwise (· < ·) := by decide +kernel
    rwa [hkeys'] at hdesc

end Xtable
