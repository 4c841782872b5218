import Xtable.Theorems.ChunkReads
import Xtable.Theorems.LastWrites
import Xtable.Theorems.SchemaVersions

/-! A committed version is in the historical rows; the memtables may hold its record's newest version besides, and a
    flushed row points at its chunk. As long as no commit writes a key that an immutable memtable still holds, a
    read finds the newest version up to its snapshot, wherever it is. -/

namespace Xtable

open Coordinator

variable {env : Env} {c : Codecs} {w w' : World} {t : String} {rk : RecordKey} {row : TxnStateRecord} {snapshot v : Nat}
  {r : StoredRecordVersion} {bodies : Table String Bytes} {m : MemTableSet} {aged : String → Bool} {mt : MemTable}

/-! ## Layers -/

/-- An entry of a memtable is the newest version of its record. -/
structure MemEntry.Tops (e : MemEntry) (s : Store) (rk : RecordKey) (v : Nat) (r : StoredRecordVersion) : Prop where
  version : e.commitVersion = (v : WithTop Nat)
  row : s.recordVersions[(rk, v)]? = some r
  deleted : e.deleted = r.entry.deleted
  body : r.entry.deleted = false → e.value = r.body
  schemaVersion : e.schemaVersion = 0
  newest : ∀ u r', s.recordVersions[(rk, u)]? = some r' → u ≤ v

/-- A read answers a version of a record. Memtables and chunks know no schema version. -/
structure ReadResult.Answers (a : ReadResult) (v : Nat) (r : StoredRecordVersion) : Prop where
  version : a.commitVersion = v
  deleted : a.deleted = r.entry.deleted
  body : r.entry.deleted = false → a.body = r.body
  schemaVersion : a.schemaVersion = 0 ∨ a.schemaVersion = r.entry.schemaVersion

/-- The object of a chunk is a readable file that answers a version of a record from its commit on. -/
def World.Serves (c : Codecs) (w : World) (chunk : ChunkIndexEntry) (rk : RecordKey) (v : Nat) (r : StoredRecordVersion) : Prop :=
  ∃ chunkId nowMs es file header footer, Flush.FileOf c chunkId nowMs es file header footer ∧
    (∀ n, decompressBody c file = .ok (bodyBytes c es) ∧ decodeBodyEntries c (bodyBytes c es) n = .ok es) ∧
    chunk.bloom = some footer.bloom ∧ w.bucket[chunk.s3Key]? = some file ∧
    ∀ snapshot, v ≤ snapshot → ∃ a : ReadResult, a.Answers v r ∧
      (Read.maxByKey (·.commitVersion.toNat) (es.filter (Read.chunkMatches rk snapshot))).map Read.chunkResult = some a

/-- Where the versions of the records are. -/
structure World.Layered (c : Codecs) (w : World) : Prop where
  built : ∀ mt ∈ w.mems.active :: w.mems.flushing, mt.Built
  memtables : ∀ rk e, w.mems.Holds rk e → ∃ v r, e.Tops w.store rk v r
  bodies : ∀ (rk : RecordKey) (v : Nat) r, w.store.recordVersions[(rk, v)]? = some r → r.body ≠ []
  -- a row points at its object key until it is flushed
  pointers : ∀ (rk : RecordKey) (v : Nat) r, w.store.recordVersions[(rk, v)]? = some r →
    '/' ∈ r.entry.chunkId.toList ∨ (w.store.chunkIndex[r.entry.chunkId]?).isSome
  slashless : ∀ (id : String) chunk, w.store.chunkIndex[id]? = some chunk → '/' ∉ id.toList
  chunks : ∀ (rk : RecordKey) (v : Nat) r chunk, w.store.recordVersions[(rk, v)]? = some r →
    w.store.chunkIndex[r.entry.chunkId]? = some chunk → w.Serves c chunk rk v r
  latest : ∀ (rk : RecordKey) r, w.store.recordIndex[rk]? = some r →
    ∃ row, w.store.recordVersions[(rk, r.entry.commitVersion)]? = some row

/-! ## Reads -/

namespace World.Layered

variable {r : StoredRecordVersion}

theorem memtable_answer {source : ReadSource} {a : ReadResult} (h : w.Layered c)
    (hmt : mt ∈ w.mems.active :: w.mems.flushing) (ha : Read.fromMemTable mt rk snapshot source = some a) :
    ∃ v r, v ≤ snapshot ∧ w.store.recordVersions[(rk, v)]? = some r ∧ a.Answers v r ∧
      ∀ u r', w.store.recordVersions[(rk, u)]? = some r' → u ≤ v := by
  obtain ⟨e, cv, he, hcv, hle, rfl⟩ := fromMemTable_some ha
  obtain ⟨v, r, htops⟩ := h.memtables rk e ⟨mt, hmt, he⟩
  obtain rfl : cv = v := WithTop.coe_injective (hcv.symm.trans htops.version)
  exact ⟨cv, r, hle, htops.row, ⟨rfl, htops.deleted, htops.body, .inl htops.schemaVersion⟩, htops.newest⟩

theorem memtables_answer {a : ReadResult} (h : w.Layered c)
    (ha : Read.fromMemTable w.mems.active rk snapshot .active = some a ∨ Read.fromImmutables w.mems.flushing rk snapshot = some a) :
    ∃ v r, v ≤ snapshot ∧ w.store.recordVersions[(rk, v)]? = some r ∧ a.Answers v r ∧
      ∀ u r', w.store.recordVersions[(rk, u)]? = some r' → u ≤ v := by
  rcases ha with ha | ha
  · exact h.memtable_answer List.mem_cons_self ha
  · obtain ⟨mt, hmt, ha⟩ := fromImmutables_some ha
    exact h.memtable_answer (List.mem_cons_of_mem _ hmt) ha

section

variable {backend : Backend} (h : w.Layered c) (hkeyed : w.store.Keyed) (hbucket : backend.objects = w.bucket)
  (hrow : w.store.recordVersions[(rk, v)]? = some r) (hle : v ≤ snapshot)
  (hmax : ∀ u r', w.store.recordVersions[(rk, u)]? = some r' → u ≤ snapshot → u ≤ v)

include h hkeyed hbucket hrow hle hmax

theorem fromIndex_answers :
    ∃ a : ReadResult, Read.fromIndex c w.store backend rk snapshot = .ok (some a) ∧ a.Answers v r := by
  have hversion : r.entry.commitVersion = v := hkeyed rk v r hrow
  unfold Read.fromIndex
  rw [Store.getRecordVersionAtSnapshot_eq_some hkeyed hrow hle hmax]
  simp only
  by_cases hdeleted : r.entry.deleted = true
  · rw [if_pos hdeleted]
    exact ⟨_, rfl, hversion, hdeleted.symm, fun hlive => by simp [hdeleted] at hlive, .inr rfl⟩
  · rw [if_neg hdeleted]
    have hlive : r.entry.deleted = false := by simpa using hdeleted
    cases hchunk : w.store.chunkIndex[r.entry.chunkId]? with
    | none =>
      rw [if_pos ⟨h.bodies rk v r hrow, by simp [Store.getChunkIndex, hchunk]⟩]
      exact ⟨_, rfl, hversion, hlive.symm, fun _ => rfl, .inr rfl⟩
    | some chunk =>
      rw [if_neg fun hinline => by simp [Store.getChunkIndex, hchunk] at hinline]
      obtain ⟨chunkId, nowMs, es, file, header, footer, hfile, hdecodes, hbloom, hobject, hanswer⟩ :=
        h.chunks rk v r chunk hrow hchunk
      obtain ⟨a, ha, hhit⟩ := hanswer snapshot hle
      refine ⟨a, ?_, ha⟩
      rw [readFromChunk_file hfile hdecodes hchunk hbloom (hbucket ▸ hobject), hhit]

theorem read_answers :
    ∃ a : ReadResult, Read.readAtSnapshot c w.mems w.store backend rk snapshot = .ok (some a) ∧ a.Answers v r := by
  have hmem : ∀ a, Read.fromMemTable w.mems.active rk snapshot .active = some a ∨
      Read.fromImmutables w.mems.flushing rk snapshot = some a → a.Answers v r := by
    intro a ha
    obtain ⟨u, r', hu, hrow', hanswers, hnewest⟩ := h.memtables_answer ha
    obtain rfl : u = v := le_antisymm (hmax u r' hrow' hu) (hnewest v r hrow)
    cases hrow.symm.trans hrow'
    exact hanswers
  unfold Read.readAtSnapshot
  cases hactive : Read.fromMemTable w.mems.active rk snapshot .active with
  | some a => exact ⟨a, rfl, hmem a (.inl hactive)⟩
  | none =>
    cases himm : Read.fromImmutables w.mems.flushing rk snapshot with
    | some a => exact ⟨a, rfl, hmem a (.inr himm)⟩
    | none => exact h.fromIndex_answers hkeyed hbucket hrow hle hmax

end

theorem read_none {backend : Backend} (h : w.Layered c) (hkeyed : w.store.Keyed)
    (hnone : ∀ u r, w.store.recordVersions[(rk, u)]? = some r → snapshot < u) :
    Read.readAtSnapshot c w.mems w.store backend rk snapshot = .ok none := by
  have hmem : ∀ a, ¬ (Read.fromMemTable w.mems.active rk snapshot .active = some a ∨
      Read.fromImmutables w.mems.flushing rk snapshot = some a) := by
    intro a ha
    obtain ⟨u, r, hu, hrow, -, -⟩ := h.memtables_answer ha
    exact absurd (hnone u r hrow) (not_lt.2 hu)
  unfold Read.readAtSnapshot
  cases hactive : Read.fromMemTable w.mems.active rk snapshot .active with
  | some a => exact absurd (.inl hactive) (hmem a)
  | none =>
    cases himm : Read.fromImmutables w.mems.flushing rk snapshot with
    | some a => exact absurd (.inr himm) (hmem a)
    | none =>
      unfold Read.fromIndex
      rw [Store.getRecordVersionAtSnapshot_eq_none hkeyed hnone, Store.getRecordIndex]
      cases hidx : w.store.recordIndex[rk]? with
      | none => simp
      | some idx =>
        -- the latest row is one of the versions
        obtain ⟨r, hrow⟩ := h.latest rk idx hidx
        simp [hnone _ r hrow]

end World.Layered

/-! ## Documents move -/

theorem World.Layered.refiled (h : w.Layered c) (hstore : w'.store.catalog = w.store.catalog) (hbucket : w'.bucket = w.bucket)
    (hbuilt : ∀ mt ∈ w'.mems.active :: w'.mems.flushing, mt.Built)
    (hholds : ∀ rk e, w'.mems.Holds rk e → w.mems.Holds rk e) : w'.Layered c := by
  have hrows : w'.store.recordVersions = w.store.recordVersions := catalog_lookup Store.recordVersions (fun _ => rfl) hstore
  have hlatest : w'.store.recordIndex = w.store.recordIndex := catalog_lookup Store.recordIndex (fun _ => rfl) hstore
  have hchunks : w'.store.chunkIndex = w.store.chunkIndex := catalog_lookup Store.chunkIndex (fun _ => rfl) hstore
  refine ⟨hbuilt, fun rk e he => ?_, ?_, ?_, ?_, ?_, ?_⟩
  · obtain ⟨v, r, htops⟩ := h.memtables rk e (hholds rk e he)
    refine ⟨v, r, htops.version, ?_, htops.deleted, htops.body, htops.schemaVersion, ?_⟩
    · rw [hrows]
      exact htops.row
    · rw [hrows]
      exact htops.newest
  · rw [hrows]
    exact h.bodies
  · rw [hrows, hchunks]
    exact h.pointers
  · rw [hchunks]
    exact h.slashless
  · rw [hrows, hchunks]
    intro rk v r chunk hrow hchunk
    simpa only [World.Serves, hbucket] using h.chunks rk v r chunk hrow hchunk
  · rw [hrows, hlatest]
    exact h.latest

theorem MemTableSet.Holds.of_rotate {e : MemEntry} (h : m.rotate.Holds rk e) : m.Holds rk e := by
  obtain ⟨id, h⟩ := holds_iff.1 h
  exact holds_iff.2 ⟨id, h.of_rotate⟩

theorem MemTableSet.mem_requeued {queue : List MemTable} (hsub : ∀ mt ∈ queue, mt ∈ m.flushing)
    (hmt : mt ∈ m.active :: queue) : mt ∈ m.active :: m.flushing := by
  rcases List.mem_cons.1 hmt with rfl | hmt
  · exact List.mem_cons_self
  · exact List.mem_cons_of_mem _ (hsub mt hmt)

theorem World.Layered.rotate (h : w.Layered c) : w.rotate.Layered c := by
  refine h.refiled rfl rfl (fun mt hmt => ?_) fun rk e he => MemTableSet.Holds.of_rotate he
  rcases List.mem_cons.1 hmt with rfl | hmt
  · exact .new _
  · rcases List.mem_append.1 hmt with hmt | hmt
    · exact h.built mt (List.mem_cons_of_mem _ hmt)
    · exact h.built mt (List.mem_singleton.1 hmt ▸ List.mem_cons_self)

theorem World.Layered.dequeued {queue : List MemTable} (h : w.Layered c) (hsub : ∀ mt ∈ queue, mt ∈ w.mems.flushing) :
    (w.dequeued queue).Layered c := by
  refine h.refiled rfl rfl (fun mt hmt => h.built mt (MemTableSet.mem_requeued hsub hmt)) fun rk e he => ?_
  obtain ⟨mt, hmt, hget⟩ := he
  exact ⟨mt, MemTableSet.mem_requeued hsub hmt, hget⟩

/-! ## Flushes -/

theorem World.freshChunkId_spec {chunkId : String} (h : w.freshChunkId chunkId = true) :
    '/' ∉ chunkId.toList ∧ w.store.chunkIndex[chunkId]? = none ∧
      ∀ header, w.bucket[Flush.s3Key c chunkId header]? = none := by
  simp only [World.freshChunkId, Bool.and_eq_true, decide_eq_true_eq, Option.isNone_iff_eq_none] at h
  obtain ⟨⟨hslash, hindex⟩, hbucket⟩ := h
  refine ⟨hslash, hindex, fun header => ?_⟩
  cases hobject : w.bucket[Flush.s3Key c chunkId header]? with
  | none => rfl
  | some file =>
    have hsuffix : ("/" ++ chunkId ++ ".xtc").toList.isSuffixOf (Flush.s3Key c chunkId header).toList = false := by
      simpa only [Bool.not_eq_true'] using List.all_eq_true.1 hbucket _ (Table.mem_toList.2 hobject)
    have hends : ("/" ++ chunkId ++ ".xtc").toList <:+ (Flush.s3Key c chunkId header).toList := by
      refine ⟨("_xtable/" ++ header.space ++ "/" ++ header.table ++ "/" ++
        toString (Flush.computeShard c header.keyMin)).toList, ?_⟩
      simp [Flush.s3Key, String.toList_append]
    rw [List.isSuffixOf_iff_suffix.2 hends] at hsuffix
    cases hsuffix

theorem World.Layered.serves {chunkId : String} {nowMs : Int64} {entries : List MemEntry} {file : Bytes}
    {header : ChunkHeader} {footer : ChunkFooter} (hzstd : c.Unzips)
    (h : w.Layered c) (hmt : mt ∈ w.mems.flushing) (hperm : entries.Perm mt.entries)
    (hfits : Flush.Fits c chunkId entries)
    (hfile : Flush.chunkFile c chunkId nowMs entries = .ok (some (file, header, footer)))
    (hobject : w'.bucket[Flush.s3Key c chunkId header]? = some file) (hshows : Shows entries rk v)
    (hrow : w.store.recordVersions[(rk, v)]? = some r) :
    w'.Serves c (Flush.indexEntry c chunkId mt file header footer) rk v r := by
  have hfileOf := Flush.chunkFile_some hfile
  have hmem : mt ∈ w.mems.active :: w.mems.flushing := List.mem_cons_of_mem _ hmt
  refine ⟨chunkId, nowMs, _, file, header, footer, hfileOf,
    hfileOf.decodes hzstd hfits.chunkId hfits.fields hfits.footer, rfl, hobject, fun snapshot hle => ?_⟩
  obtain ⟨e, he, hkey, hversion⟩ := hshows
  obtain ⟨rk', hget⟩ := MemTable.mem_entries.1 (hperm.mem_iff.1 he)
  have hbuilt := h.built mt hmem
  obtain rfl : rk' = rk := (hbuilt.entry hget).1.symm.trans hkey
  obtain ⟨u, r', htops⟩ := h.memtables rk' e ⟨mt, hmem, hget⟩
  obtain rfl : u = v := WithTop.coe_injective (htops.version.symm.trans hversion)
  cases hrow.symm.trans htops.row
  have hanswer := (hbuilt.chunk_answer hperm hfits.widths rk' snapshot).1 e u hget hversion
  rw [if_pos hle] at hanswer
  exact ⟨e.chunkAnswer u, ⟨rfl, htops.deleted, htops.body, .inl htops.schemaVersion⟩, Except.ok.inj hanswer⟩

theorem World.Serves.insert {chunk : ChunkIndexEntry} {name : String} {file : Bytes} (h : w.Serves c chunk rk v r)
    (hbucket : w'.bucket = w.bucket.insert name file) (hfresh : w.bucket[name]? = none) :
    w'.Serves c chunk rk v r := by
  obtain ⟨chunkId, nowMs, es, file', header, footer, hfile, hdecodes, hbloom, hobject, hanswer⟩ := h
  refine ⟨chunkId, nowMs, es, file', header, footer, hfile, hdecodes, hbloom, ?_, hanswer⟩
  have hne : name ≠ chunk.s3Key := by
    rintro rfl
    rw [hfresh] at hobject
    cases hobject
  rw [hbucket, Table.get_insert, if_neg hne, hobject]

theorem World.Serves.pointed {chunk : ChunkIndexEntry} {r' : StoredRecordVersion} (h : w.Serves c chunk rk v r)
    (hentry : r'.entry.deleted = r.entry.deleted ∧ r'.entry.schemaVersion = r.entry.schemaVersion)
    (hbody : r'.body = r.body) : w.Serves c chunk rk v r' := by
  obtain ⟨chunkId, nowMs, es, file', header, footer, hfile, hdecodes, hbloom, hobject, hanswer⟩ := h
  refine ⟨chunkId, nowMs, es, file', header, footer, hfile, hdecodes, hbloom, hobject, fun snapshot hle => ?_⟩
  obtain ⟨a, ha, hhit⟩ := hanswer snapshot hle
  exact ⟨a, ⟨ha.version, ha.deleted.trans hentry.1.symm, fun hlive => (ha.body (hentry.1 ▸ hlive)).trans hbody.symm,
    hentry.2 ▸ ha.schemaVersion⟩, hhit⟩

theorem World.Layered.flushed {chunkId : String} {nowMs : Int64} {entries : List MemEntry} {rest : List MemTable}
    {file : Bytes} {header : ChunkHeader} {footer : ChunkFooter} (hzstd : c.Unzips)
    (h : w.Layered c) (hqueue : w.mems.flushing = mt :: rest) (hperm : entries.Perm mt.entries)
    (hfresh : w.freshChunkId chunkId = true) (hfits : Flush.Fits c chunkId entries)
    (hfile : Flush.chunkFile c chunkId nowMs entries = .ok (some (file, header, footer))) :
    ((w.dequeued rest).flushed c chunkId mt entries file header footer).Layered c := by
  set w' := (w.dequeued rest).flushed c chunkId mt entries file header footer
  obtain ⟨hslash, hnew, hobjects⟩ := World.freshChunkId_spec (c := c) hfresh
  have hdequeued : (w.dequeued rest).Layered c := h.dequeued fun mt' hmt => hqueue ▸ List.mem_cons_of_mem _ hmt
  have hbucket : w'.bucket = w.bucket.insert (Flush.s3Key c chunkId header) file := rfl
  have hchunks : w'.store.chunkIndex = w.store.chunkIndex.insert chunkId (Flush.indexEntry c chunkId mt file header footer) :=
    chunkIndex_flushed
  have hversions : ∀ (rk : RecordKey) (v : Nat), w'.store.recordVersions[(rk, v)]? = (w.store.recordVersions[(rk, v)]?).map
      fun r => if Shows entries rk v then { r with entry := r.entry.pointedAt chunkId } else r := fun rk v =>
    recordVersions_flushed
  -- a row after the flush is an old one, which may point elsewhere
  have hrow : ∀ (rk : RecordKey) (v : Nat) r', w'.store.recordVersions[(rk, v)]? = some r' →
      ∃ r, w.store.recordVersions[(rk, v)]? = some r ∧ r'.entry.deleted = r.entry.deleted ∧
        r'.entry.schemaVersion = r.entry.schemaVersion ∧ r'.body = r.body ∧
        r'.entry.chunkId = if Shows entries rk v then chunkId else r.entry.chunkId := by
    intro rk v r' hr'
    rw [hversions] at hr'
    obtain ⟨r, hr, rfl⟩ := Option.map_eq_some_iff.1 hr'
    refine ⟨r, hr, ?_⟩
    by_cases hshows : Shows entries rk v <;> simp [hshows, RecordIndexEntry.pointedAt]
  have hsome : ∀ (rk : RecordKey) (v : Nat) r, w.store.recordVersions[(rk, v)]? = some r →
      ∃ r', w'.store.recordVersions[(rk, v)]? = some r' ∧ r'.entry.deleted = r.entry.deleted ∧ r'.body = r.body := by
    intro rk v r hr
    refine ⟨_, (hversions rk v).trans (by rw [hr]; rfl), ?_⟩
    by_cases hshows : Shows entries rk v <;> simp [hshows, RecordIndexEntry.pointedAt]
  refine ⟨hdequeued.built, fun rk e he => ?_, fun rk v r' hr' => ?_, fun rk v r' hr' => ?_, fun id chunk hchunk => ?_,
    fun rk v r' chunk hr' hchunk => ?_, fun rk r' hr' => ?_⟩
  · obtain ⟨v, r, htops⟩ := hdequeued.memtables rk e he
    obtain ⟨r', hr', hdeleted, hbody⟩ := hsome rk v r htops.row
    refine ⟨v, r', htops.version, hr', htops.deleted.trans hdeleted.symm,
      fun hlive => (htops.body (hdeleted ▸ hlive)).trans hbody.symm, htops.schemaVersion, fun u r'' hr'' => ?_⟩
    obtain ⟨r₀, hr₀, -⟩ := hrow rk u r'' hr''
    exact htops.newest u r₀ hr₀
  · obtain ⟨r, hr, -, -, hbody, -⟩ := hrow rk v r' hr'
    exact hbody ▸ h.bodies rk v r hr
  · obtain ⟨r, hr, -, -, -, hid⟩ := hrow rk v r' hr'
    rw [hchunks, Table.get_insert, hid]
    split
    · exact .inr (by simp)
    · refine (h.pointers rk v r hr).imp id fun hindexed => ?_
      split
      · rfl
      · exact hindexed
  · rw [hchunks, Table.get_insert] at hchunk
    split at hchunk
    case isTrue hid => exact hid ▸ hslash
    case isFalse => exact h.slashless id chunk hchunk
  · obtain ⟨r, hr, hdeleted, hschema, hbody, hid⟩ := hrow rk v r' hr'
    rw [hchunks, Table.get_insert, hid] at hchunk
    have hpointed : w'.Serves c chunk rk v r := by
      by_cases hshows : Shows entries rk v
      · rw [if_pos hshows, if_pos rfl] at hchunk
        cases hchunk
        exact h.serves hzstd (hqueue ▸ List.mem_cons_self) hperm hfits hfile (by rw [hbucket]; simp) hshows hr
      · rw [if_neg hshows] at hchunk
        have hne : chunkId ≠ r.entry.chunkId := by
          rintro rfl
          rcases h.pointers rk v r hr with hkey | hindexed
          · exact hslash hkey
          · simp [hnew] at hindexed
        rw [if_neg hne] at hchunk
        exact (h.chunks rk v r chunk hr hchunk).insert hbucket (hobjects header)
    exact hpointed.pointed ⟨hdeleted, hschema⟩ hbody
  · have hlatest : w'.store.recordIndex[rk]? = (w.store.recordIndex[rk]?).map fun r =>
        if Shows entries rk r.entry.commitVersion then { r with entry := r.entry.pointedAt chunkId } else r :=
      recordIndex_flushed
    rw [hlatest] at hr'
    obtain ⟨r, hr, rfl⟩ := Option.map_eq_some_iff.1 hr'
    obtain ⟨r₀, hr₀⟩ := h.latest rk r hr
    obtain ⟨r₁, hr₁, -⟩ := hsome rk _ r₀ hr₀
    refine ⟨r₁, ?_⟩
    split <;> exact hr₁

/-! ## Commits -/

/-- No immutable memtable holds the key. -/
def MemTableSet.clear (m : MemTableSet) (rk : RecordKey) : Bool := m.flushing.all fun mt => (mt.map[rk]?).isNone

theorem MemTableSet.Holds.of_published_clear {e : MemEntry} {ws : WriteSet}
    (hclear : m.eachPut MemTableSet.clear t v bodies aged ws = true) (h : (m.published t v bodies aged ws).Holds rk e) :
    (∃ x ∈ ws, memKey x.1 = rk ∧ e = memEntry t v bodies x.1 x.2) ∨ m.Holds rk e ∧ ∀ x ∈ ws, memKey x.1 ≠ rk := by
  induction ws generalizing m with
  | nil => exact .inr ⟨h, by simp⟩
  | cons x rest ih =>
    obtain ⟨hx, hrest⟩ := Bool.and_eq_true_iff.1 hclear
    rcases ih hrest h with ⟨y, hy, hkey, rfl⟩ | ⟨h₁, hnone⟩
    · exact .inl ⟨y, List.mem_cons_of_mem _ hy, hkey, rfl⟩
    · obtain ⟨e', h₂, rfl⟩ := h₁.of_publish
      obtain ⟨id, h₂⟩ := holds_iff.1 h₂
      by_cases hkey : memKey x.1 = rk
      · rcases h₂.of_putInvisible with ⟨-, rfl⟩ | ⟨-, hqueue⟩
        · refine .inl ⟨x, List.mem_cons_self, hkey, ?_⟩
          rw [if_pos hkey]
          rfl
        · obtain ⟨mt, hmt, hget⟩ := hqueue hkey
          have hnone := List.all_eq_true.1 hx mt hmt
          rw [hkey, hget] at hnone
          cases hnone
      · rw [if_neg hkey]
        refine .inr ⟨?_, fun y hy => ?_⟩
        · rcases h₂.of_putInvisible with ⟨hput, -⟩ | ⟨hold, -⟩
          · exact absurd hput hkey
          · exact holds_iff.2 ⟨id, hold⟩
        · rcases List.mem_cons.1 hy with rfl | hy
          · exact hkey
          · exact hnone y hy

theorem DocKey.slash {key : String} (h : DocKey rk key) : '/' ∈ key.toList := by
  cases h with
  | record h => simp [(recordKeyOf_of_recordKey h).eq]
  | schema h => simp [(schemaKeyOf_of_schemaKey h).eq]

namespace Publication

theorem rows_lt {d : Doc} (h : Publication env w t row w') (hdraft : Draft w t row) (hagree : w.store.Agrees)
    (hd : d ∈ (w.pendingOf t).docs) (hr : w.store.recordVersions[(d.rk, v)]? = some r) : v < w.nextVersion row := by
  have hwritten : d.key ∈ row.writeKeys := (hdraft.keys d.key).2 fun hnone => PendingTxn.docAt_eq_none.1 hnone d hd rfl
  have hold := hagree d.rk d.key (hdraft.keyed.docKey hd)
  have hmem : v ∈ (w.store.readChain d.key).entries.map (·.commitVersion) :=
    hold.versions_eq ▸ List.mem_map_of_mem (Store.mem_recordRows.2 hr)
  obtain ⟨e, he, rfl⟩ := List.mem_map.1 hmem
  obtain ⟨last, hlast⟩ := Option.isSome_iff_exists.1 (List.getLast?_isSome.2 (List.ne_nil_of_mem he))
  calc e.commitVersion ≤ last.commitVersion := le_of_getLast? hold.ascending hlast e he
    _ ≤ row.snapshotVersion := Store.newerKey_none h.newest hwritten hlast
    _ < w.nextVersion row := h.lt_nextVersion (List.ne_nil_of_mem hwritten)

theorem row_stays (h : Publication env w t row w') (hdraft : Draft w t row) (hagree : w.store.Agrees)
    (hr : w.store.recordVersions[(rk, v)]? = some r) : w'.store.recordVersions[(rk, v)]? = some r := by
  rw [h.recordVersions_eq, Store.indexed_eq hdraft.keyed]
  simp only [recordVersions_indexDocs]
  rw [Table.get_insertAll_of_not_mem, hr]
  intro r' hmem
  obtain ⟨d, hd, heq⟩ := List.mem_map.1 hmem
  obtain ⟨hkeys, -⟩ := Prod.mk.inj heq
  obtain ⟨rfl, hversion⟩ := Prod.mk.inj hkeys
  have hlt := h.rows_lt hdraft hagree hd hr
  rw [← hversion, hdraft.docVersion _ hd] at hlt
  exact lt_irrefl _ hlt

end Publication

theorem Draft.docAt_of_mem {d : Doc} (hdraft : Draft w t row) (hd : d ∈ (w.pendingOf t).docs) :
    ∃ d', (w.pendingOf t).docAt d.key = some d' ∧ d'.rk = d.rk := by
  cases hdoc : (w.pendingOf t).docAt d.key with
  | none => exact absurd rfl (PendingTxn.docAt_eq_none.1 hdoc d hd)
  | some d' =>
    obtain ⟨hd', hkey⟩ := PendingTxn.docAt_mem hdoc
    exact ⟨d', rfl, (hkey ▸ hdraft.keyed.docKey hd').record_unique (hdraft.keyed.docKey hd)⟩

theorem MemTableSet.built_published {ws : WriteSet}
    (hclear : m.eachPut MemTableSet.clear t v bodies aged ws = true) (h : ∀ mt ∈ m.active :: m.flushing, mt.Built) :
    ∀ mt ∈ (m.published t v bodies aged ws).active :: (m.published t v bodies aged ws).flushing, mt.Built := by
  refine MemTableSet.published_keeps (I := fun m => ∀ mt ∈ m.active :: m.flushing, mt.Built) (fun m x _ hm _ => ?_) hclear h
  have hput : ∀ mt ∈ (m.putInvisible (memEntry t v bodies x.1 x.2) (aged x.1)).active ::
      (m.putInvisible (memEntry t v bodies x.1 x.2) (aged x.1)).flushing, mt.Built := by
    have hactive : (m.active.putInvisible (memEntry t v bodies x.1 x.2)).Built := .put (hm _ List.mem_cons_self) _
    intro mt hmt
    unfold MemTableSet.putInvisible at hmt
    simp only at hmt
    split at hmt
    · rcases List.mem_cons.1 hmt with rfl | hmt
      · exact .new _
      · rcases List.mem_append.1 hmt with hmt | hmt
        · exact hm mt (List.mem_cons_of_mem _ hmt)
        · exact List.mem_singleton.1 hmt ▸ hactive
    · rcases List.mem_cons.1 hmt with rfl | hmt
      · exact hactive
      · exact hm mt (List.mem_cons_of_mem _ hmt)
  intro mt hmt
  rcases List.mem_cons.1 hmt with rfl | hmt
  · exact .publish (hput _ List.mem_cons_self) _ _
  · obtain ⟨mt', hmt', rfl⟩ := List.mem_map.1 hmt
    exact .publish (hput mt' (List.mem_cons_of_mem _ hmt')) _ _

theorem World.Layered.published (hjson : ∀ x, utf8 (env.jsonText x) ≠ []) (h : w.Layered c) (hs : Structured w)
    (hbodies : Bodies env w) (hpub : Publication env w t row w')
    (hstaged : w.stagedBodies ∅ (w.store.iterWriteSet t) = .ok bodies)
    (hmems : w'.mems = w.mems.published t (w.nextVersion row) bodies aged (w.store.iterWriteSet t))
    (hclear : w.mems.eachPut MemTableSet.clear t (w.nextVersion row) bodies aged (w.store.iterWriteSet t) = true)
    (hbucket : w'.bucket = w.bucket) : w'.Layered c := by
  have hdraft := hs.drafts.active t row hpub.found hpub.active
  have hrow := fun rk u r (hr : w'.store.recordVersions[(rk, u)]? = some r) => hpub.row_cases hdraft hr
  refine ⟨?_, fun rk e he => ?_, fun rk u r hr => ?_, fun rk u r hr => ?_, ?_, fun rk u r chunk hr hchunk => ?_, fun rk r hr => ?_⟩
  · rw [hmems]
    exact MemTableSet.built_published hclear h.built
  · rw [hmems] at he
    rcases he.of_published_clear hclear with ⟨x, hx, hkey, rfl⟩ | ⟨hold, hnone⟩
    · obtain ⟨d, hd, hrk, hdeleted, hvalue⟩ := hdraft.memEntry hbodies hstaged hx (w.nextVersion row)
      obtain ⟨hmem, -⟩ := PendingTxn.docAt_mem hd
      obtain rfl : d.rk = rk := hrk.symm.trans hkey
      obtain ⟨r, hr, -, hgone, hbody⟩ := (hpub.carries hdraft hs.agrees hbodies hd).version
      rw [Doc.operation_isNone] at hgone
      refine ⟨_, r, rfl, hr, hdeleted.trans hgone.symm, fun hlive => ?_, rfl, fun u r' hr' => ?_⟩
      · have hlive' : d.deleted = false := hgone.symm.trans hlive
        exact (hvalue hlive').trans (hbody d.body (by simp [Doc.operation, hlive'])).symm
      · rcases hrow _ u r' hr' with hold | ⟨-, -, -, rfl, -⟩
        · exact (hpub.rows_lt hdraft hs.agrees hmem hold).le
        · exact le_rfl
    · obtain ⟨u, r, htops⟩ := h.memtables rk e hold
      refine ⟨u, r, htops.version, hpub.row_stays hdraft hs.agrees htops.row, htops.deleted, htops.body,
        htops.schemaVersion, fun u' r' hr' => ?_⟩
      rcases hrow _ u' r' hr' with hold | ⟨d, hd, rfl, -, -⟩
      · exact htops.newest u' r' hold
      · -- the commit writes none of the record
        have hwritten := hdraft.writes d.key
        obtain ⟨d', hd', -⟩ := hdraft.docAt_of_mem hd
        rw [hd', Option.map_some] at hwritten
        obtain ⟨we, hwe, -⟩ := Option.map_eq_some_iff.1 hwritten
        exact absurd (hdraft.keyed.docKey hd).memKey_eq (hnone (d.key, we) (mem_iterWriteSet.2 hwe))
  · rcases hrow rk u r hr with hold | ⟨d, -, -, -, rfl⟩
    · exact h.bodies rk u r hold
    · exact hjson _
  · rw [hpub.chunks]
    rcases hrow rk u r hr with hold | ⟨d, hd, -, -, rfl⟩
    · exact h.pointers rk u r hold
    · exact .inl (hdraft.keyed.docKey hd).slash
  · rw [hpub.chunks]
    exact h.slashless
  · rw [hpub.chunks] at hchunk
    rcases hrow rk u r hr with hold | ⟨d, hd, -, -, rfl⟩
    · simpa only [World.Serves, hbucket] using h.chunks rk u r chunk hold hchunk
    · exact absurd (hdraft.keyed.docKey hd).slash (h.slashless _ chunk hchunk)
  · rcases hpub.latest_cases hdraft hs.agrees hr with hold | ⟨d, hd, rfl, rfl⟩
    · obtain ⟨r₀, hr₀⟩ := h.latest rk r hold
      exact ⟨r₀, hpub.row_stays hdraft hs.agrees hr₀⟩
    · obtain ⟨d', hd', hrk⟩ := hdraft.docAt_of_mem hd
      obtain ⟨r₀, hr₀, -⟩ := (hpub.carries hdraft hs.agrees hbodies hd').version
      have hversion : (d.entry (commitEvent t row (w.store.iterWriteSet t) (w.nextVersion row))).commitVersion =
          w.nextVersion row := hdraft.docVersion _ hd
      refine ⟨r₀, ?_⟩
      rw [Doc.latest, hversion, ← hrk]
      exact hr₀

/-! ## Runs -/

def NodeOp.collects : NodeOp → Bool
  | request (.call (.sweep ..)) => true
  | _ => false

/-- The format of a chunk has room for what a flush writes. -/
def NodeOp.Fits (c : Codecs) : NodeOp → Prop
  | flush chunkId _ entries => Flush.Fits c chunkId entries
  | _ => True

/-- A step after which the layers are still in order. -/
structure NodeOp.Layers (env : Env) (c : Codecs) (w : World) (op : NodeOp) : Prop where
  whole : op.whole = true
  apart : op.apart env w = true
  keeps : op.collects = false
  clear : op.eachPut MemTableSet.clear w = true
  fits : op.Fits c

theorem World.Layered.empty : World.Layered c {} := by
  refine ⟨fun mt hmt => ?_, fun rk e he => ?_, fun rk v r hr => ?_, fun rk v r hr => ?_, fun id chunk hchunk => ?_,
    fun rk v r chunk hr => ?_, fun rk r hr => ?_⟩
  · exact List.mem_singleton.1 hmt ▸ .new 0
  · obtain ⟨mt, hmt, hget⟩ := he
    rw [List.mem_singleton.1 hmt] at hget
    simp at hget
  · simp at hr
  · simp at hr
  · simp at hchunk
  · simp at hr
  · simp at hr

theorem World.Layered.step {op : NodeOp} (hzstd : c.Unzips)
    (hjson : ∀ x, utf8 (env.jsonText x) ≠ []) (h : w.Layered c) (hs : Structured w) (hbodies : Bodies env w)
    (hop : op.Layers env c w) (hstep : op.step env c w = some w') : w'.Layered c := by
  cases op with
  | request r =>
    obtain ⟨-, heffect, -, -⟩ := hs.step hop.whole hstep
    have hbucket := heffect.bucket
    cases ServerStep.of_effect hs.inv hop.whole heffect with
    | kept hcatalog hmems => exact h.refiled hcatalog hbucket (hmems ▸ h.built) (hmems ▸ fun _ _ he => he)
    | swept hreq =>
      subst hreq
      cases hop.keeps
    | published hreq hpub hstaged hmems =>
      subst hreq
      exact h.published hjson hs hbodies hpub hstaged hmems (NodeOp.eachPut_commit hop.clear hpub.found hstaged) hbucket
  | rotate =>
    cases hstep
    exact h.rotate
  | flush chunkId nowMs entries =>
    obtain ⟨mt, rest, hqueue, hcases⟩ := World.flush_cases hstep
    have hsub : ∀ mt' ∈ rest, mt' ∈ w.mems.flushing := fun mt' hmt => hqueue ▸ List.mem_cons_of_mem _ hmt
    rcases hcases with rfl | rfl | ⟨file, header, footer, hperm, hfresh, -, hfile, rfl⟩
    · exact h.dequeued hsub
    · exact h.dequeued fun mt' hmt => hqueue ▸ (List.perm_append_singleton mt rest).mem_iff.1 hmt
    · exact h.flushed hzstd hqueue hperm hfresh hop.fits hfile
  | failedFlush chunkId nowMs entries n =>
    obtain rfl : n = 0 := by simpa [NodeOp.whole] using hop.whole
    obtain ⟨mt, rest, hqueue, rfl⟩ := World.failedFlush_zero hstep
    exact h.dequeued fun mt' hmt => hqueue ▸ (List.perm_append_singleton mt rest).mem_iff.1 hmt

theorem World.Layered.of_run {hist : List (World × NodeOp × World)} (hzstd : c.Unzips)
    (hjson : ∀ x, utf8 (env.jsonText x) ≠ []) (hrun : Run (NodeOp.step env c) {} hist w)
    (hcond : ∀ x ∈ hist, x.2.1.Layers env c x.1) : Orderly w ∧ Bodies env w ∧ w.Layered c := by
  refine (hrun.invariant (I := fun w => Orderly w ∧ Bodies env w ∧ w.Layered c) 
    (C := fun w (op : NodeOp) => op.Layers env c w) ⟨.empty, .empty, .empty⟩ (fun u op v hu hop hstep => ?_) hcond).1
  obtain ⟨horderly, hbodies, hlayered⟩ := hu
  have hs := horderly.structured
  have hnode := NodeStep.of_step hop.whole hstep
  exact ⟨horderly.step hnode, hbodies.node_step hs hop.apart hnode, hlayered.step hzstd hjson hs hbodies hop hstep⟩

end Xtable
