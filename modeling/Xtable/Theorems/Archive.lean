import Xtable.Theorems.SnapshotReads
import Xtable.Theorems.RebuildAgain

/-! What the bucket holds. Each memtable is uploaded once, as long as no attempt to flush it fails after its upload;
    no version of a record is then in two objects, and a rebuild takes each one once. -/

namespace Xtable

open Rebuild

variable {env : Env} {c : Codecs} {w w' : World} {t : String} {rk : RecordKey} {row : TxnStateRecord}

/-! ## Objects -/

/-- What a rebuild decodes from an object. -/
def decodeChunk (c : Codecs) (bytes : Bytes) : Except Fault (ChunkHeader × List ChunkEntry) := do
  let (header, _) ← ChunkHeader.decode c bytes
  let body ← decompressBody c bytes
  let entries ← decodeBodyEntries c body header.recordCount
  return (header, entries)

theorem scanObject_of_decodeChunk {backend : Backend} {lo : ListedObject} {bytes : Bytes} {header : ChunkHeader}
    {es : List ChunkEntry} (hname : ".xtc".toList.isSuffixOf lo.key.toList = true) (hobject : backend.objects[lo.key]? = some bytes)
    (hdecode : decodeChunk c bytes = .ok (header, es)) : scanObject c backend lo = .ok (some ⟨lo, header, es⟩) := by
  unfold scanObject
  rw [if_pos hname, hobject]
  unfold decodeChunk at hdecode
  simp only [bind, Except.bind, pure, Except.pure] at hdecode ⊢
  cases hheader : ChunkHeader.decode c bytes with
  | error x => simp [hheader] at hdecode
  | ok r =>
    simp only [hheader] at hdecode ⊢
    cases hbody : decompressBody c bytes with
    | error x => simp [hbody] at hdecode
    | ok body =>
      simp only [hbody] at hdecode ⊢
      cases hentries : decodeBodyEntries c body r.1.recordCount with
      | error x => simp [hentries] at hdecode
      | ok entries =>
        simp only [hentries, Except.ok.injEq, Prod.mk.injEq] at hdecode ⊢
        obtain ⟨rfl, rfl⟩ := hdecode
        rfl

theorem Flush.FileOf.decodeChunk {chunkId : String} {nowMs : Int64} {es : List ChunkEntry} {file : Bytes} {header : ChunkHeader}
    {footer : ChunkFooter} (h : Flush.FileOf c chunkId nowMs es file header footer) (hzstd : c.Unzips)
    (hid : (utf8 chunkId).length ≤ 65535) (hfits : ∀ e ∈ es, e.Fits) (hfooter : FooterFits c es) :
    Xtable.decodeChunk c file = .ok (header, es) ∧ header.chunkId = chunkId := by
  obtain ⟨hbody, hentries⟩ := h.decodes hzstd hid hfits hfooter header.recordCount
  obtain ⟨e, he, compressed, footerBytes, hfinal⟩ := h
  obtain ⟨hspace, htable⟩ := (hfits e (List.mem_of_mem_head? he)).names
  have hheader := hfinal.header_fits hid hspace htable fun e he => (hfits e he).key
  have hdecode : ∃ n, ChunkHeader.decode c file = .ok (header, n) := by
    rw [hfinal.file_eq, List.append_assoc, List.append_assoc]
    exact ⟨_, ChunkHeader.decode_encode c hheader _⟩
  obtain ⟨n, hdecode⟩ := hdecode
  refine ⟨?_, hfinal.chunkId⟩
  simp [Xtable.decodeChunk, hdecode, hbody, hentries, bind, Except.bind, pure, Except.pure]

theorem DocKey.plain {key : String} (h : DocKey rk key) : '/' ∉ rk.1.toList ∧ '/' ∉ rk.2.1.toList := by
  cases h with
  | record h => exact ⟨(recordKeyOf_of_recordKey h).plainSpace, (recordKeyOf_of_recordKey h).plainTable⟩
  | schema h => exact ⟨(schemaKeyOf_of_schemaKey h).plainSpace, show '/' ∉ "_schema".toList by decide⟩

/-- An object of the bucket, as it decodes. -/
def World.Filed (c : Codecs) (w : World) (name : String) (header : ChunkHeader) (es : List ChunkEntry) : Prop :=
  ∃ file, w.bucket[name]? = some file ∧ decodeChunk c file = .ok (header, es)

theorem World.Filed.unique {name : String} {header header' : ChunkHeader} {es es' : List ChunkEntry} (h : w.Filed c name header es)
    (h' : w.Filed c name header' es') : header = header' ∧ es = es' := by
  obtain ⟨file, hfile, hdecode⟩ := h
  obtain ⟨file', hfile', hdecode'⟩ := h'
  cases hfile.symm.trans hfile'
  exact Prod.mk.inj (Except.ok.inj (hdecode.symm.trans hdecode'))

/-- A version of a record that the bucket holds: it has a row, and no memtable holds it. -/
structure World.Uploaded (w : World) (e : ChunkEntry) : Prop where
  row : ∃ r, w.store.recordVersions[(recordOf e, e.commitVersion.toNat)]? = some r
  gone : ∀ m, w.mems.Holds (recordOf e) m → m.commitVersion ≠ ((e.commitVersion.toNat : Nat) : WithTop Nat)

/-- Memtables that share no key. -/
def MemTable.Apart (a b : MemTable) : Prop := ∀ rk : RecordKey, a.map[rk]? = none ∨ b.map[rk]? = none

/-- No version of a record is in two places. -/
structure World.Archived (c : Codecs) (w : World) : Prop where
  docs : ∀ (rk : RecordKey) (v : Nat) r, w.store.recordVersions[(rk, v)]? = some r → ∃ key, DocKey rk key
  apart : (w.mems.active :: w.mems.flushing).Pairwise MemTable.Apart
  filed : ∀ (name : String) file, w.bucket[name]? = some file →
    ∃ header es, decodeChunk c file = .ok (header, es) ∧ name = Flush.s3Key c header.chunkId header
  ids : ∀ name name' header header' es es', w.Filed c name header es → w.Filed c name' header' es' →
    header.chunkId = header'.chunkId → name = name'
  uploaded : ∀ name header es, w.Filed c name header es → ∀ e ∈ es, w.Uploaded e
  within : ∀ name header es, w.Filed c name header es → (es.map recordOf).Nodup
  once : ∀ name name' header header' es es', w.Filed c name header es → w.Filed c name' header' es' → ∀ e ∈ es, ∀ e' ∈ es',
    recordOf e = recordOf e' → e.commitVersion = e'.commitVersion → name = name'

theorem MemTable.Apart.symm {a b : MemTable} (h : a.Apart b) : b.Apart a := fun rk => (h rk).symm

/-! ## Memtables stay apart -/

namespace MemTableSet

variable {m : MemTableSet}

theorem apart_rotate (h : (m.active :: m.flushing).Pairwise MemTable.Apart) :
    (m.rotate.active :: m.rotate.flushing).Pairwise MemTable.Apart := by
  obtain ⟨hhead, htail⟩ := List.pairwise_cons.1 h
  refine .cons (fun mt _ rk => .inl (by simp [rotate])) ?_
  exact List.pairwise_append.2 ⟨htail, by simp, fun a ha b hb => List.mem_singleton.1 hb ▸ (hhead a ha).symm⟩

theorem apart_putInvisible {e : MemEntry} {aged : Bool} (hclear : m.clear e.key = true)
    (h : (m.active :: m.flushing).Pairwise MemTable.Apart) :
    ((m.putInvisible e aged).active :: (m.putInvisible e aged).flushing).Pairwise MemTable.Apart := by
  obtain ⟨hhead, htail⟩ := List.pairwise_cons.1 h
  have hput : (m.active.putInvisible e :: m.flushing).Pairwise MemTable.Apart := by
    refine .cons (fun mt hmt rk => ?_) htail
    by_cases hkey : e.key = rk
    · subst hkey
      exact .inr (Option.isNone_iff_eq_none.1 (List.all_eq_true.1 hclear mt hmt))
    · refine (hhead mt hmt rk).imp_left fun hnone => ?_
      simp [MemTable.putInvisible, hkey, hnone]
  unfold MemTableSet.putInvisible
  simp only
  split
  · exact apart_rotate (m := { m with active := m.active.putInvisible e }) hput
  · exact hput

theorem apart_publish {key : RecordKey} {v : Nat} (h : (m.active :: m.flushing).Pairwise MemTable.Apart) :
    ((m.publish key v).active :: (m.publish key v).flushing).Pairwise MemTable.Apart := by
  have hkeys : ∀ (mt : MemTable) (rk : RecordKey), mt.map[rk]? = none → (mt.publish key v).map[rk]? = none := by
    intro mt rk hnone
    rw [get_publish, hnone]
    simp
  change ((m.active :: m.flushing).map (·.publish key v)).Pairwise MemTable.Apart
  exact List.pairwise_map.2 (h.imp fun hab rk => (hab rk).imp (hkeys _ rk) (hkeys _ rk))

theorem apart_published {v : Nat} {bodies : Table String Bytes} {aged : String → Bool} {ws : WriteSet}
    (hclear : m.eachPut MemTableSet.clear t v bodies aged ws = true) (h : (m.active :: m.flushing).Pairwise MemTable.Apart) :
    ((m.published t v bodies aged ws).active :: (m.published t v bodies aged ws).flushing).Pairwise MemTable.Apart := by
  refine MemTableSet.published_keeps (I := fun m => (m.active :: m.flushing).Pairwise MemTable.Apart)
    (fun m x _ hm hx => ?_) hclear h
  exact apart_publish (apart_putInvisible hx hm)

end MemTableSet

/-! ## Steps -/

namespace World.Archived

theorem kept (h : w.Archived c) (hbucket : w'.bucket = w.bucket)
    (hdocs : ∀ (rk : RecordKey) (v : Nat) r, w'.store.recordVersions[(rk, v)]? = some r → ∃ key, DocKey rk key)
    (hapart : (w'.mems.active :: w'.mems.flushing).Pairwise MemTable.Apart)
    (hrows : ∀ (rk : RecordKey) (v : Nat) r, w.store.recordVersions[(rk, v)]? = some r →
      ∃ r', w'.store.recordVersions[(rk, v)]? = some r')
    (hholds : ∀ (rk : RecordKey) (v : Nat) r m, w.store.recordVersions[(rk, v)]? = some r → w'.mems.Holds rk m →
      w.mems.Holds rk m ∨ m.commitVersion ≠ (v : WithTop Nat)) : w'.Archived c := by
  have hfiled : ∀ {name header es}, w'.Filed c name header es → w.Filed c name header es := by
    intro name header es hf
    simpa only [World.Filed, hbucket] using hf
  refine ⟨hdocs, hapart, ?_, ?_, ?_, ?_, ?_⟩
  · rw [hbucket]
    exact h.filed
  · exact fun name name' header header' es es' hf hf' => h.ids name name' header header' es es' (hfiled hf) (hfiled hf')
  · intro name header es hf e he
    obtain ⟨⟨r, hr⟩, hgone⟩ := h.uploaded name header es (hfiled hf) e he
    refine ⟨hrows _ _ r hr, fun m hm => ?_⟩
    rcases hholds _ _ r m hr hm with hold | hne
    · exact hgone m hold
    · exact hne
  · exact fun name header es hf => h.within name header es (hfiled hf)
  · exact fun name name' header header' es es' hf hf' => h.once name name' header header' es es' (hfiled hf) (hfiled hf')

theorem moved (h : w.Archived c) (hbucket : w'.bucket = w.bucket)
    (hrows : w'.store.recordVersions = w.store.recordVersions)
    (hapart : (w'.mems.active :: w'.mems.flushing).Pairwise MemTable.Apart)
    (hholds : ∀ rk m, w'.mems.Holds rk m → w.mems.Holds rk m) : w'.Archived c := by
  refine h.kept hbucket ?_ hapart ?_ fun rk v r m _ hm => .inl (hholds rk m hm)
  · rw [hrows]
    exact h.docs
  · rw [hrows]
    exact fun _ _ r hr => ⟨r, hr⟩

theorem dequeued {queue : List MemTable} (h : w.Archived c) (hqueue : queue.Subperm w.mems.flushing) :
    (w.dequeued queue).Archived c := by
  refine h.moved rfl rfl ?_ fun rk m hm => ?_
  · obtain ⟨l, hperm, hsub⟩ := hqueue
    have hsymm : ∀ {a b : MemTable}, a.Apart b → b.Apart a := MemTable.Apart.symm
    have hl : (w.mems.active :: l).Pairwise MemTable.Apart := h.apart.sublist (hsub.cons_cons _)
    exact ((hperm.cons _).pairwise_iff hsymm).1 hl
  · obtain ⟨mt, hmt, hget⟩ := hm
    exact ⟨mt, MemTableSet.mem_requeued hqueue.subset hmt, hget⟩

theorem published {bodies : Table String Bytes} {aged : String → Bool} (h : w.Archived c) (hs : Structured w)
    (hpub : Publication env w t row w')
    (hmems : w'.mems = w.mems.published t (w.nextVersion row) bodies aged (w.store.iterWriteSet t))
    (hclear : w.mems.eachPut MemTableSet.clear t (w.nextVersion row) bodies aged (w.store.iterWriteSet t) = true)
    (hbucket : w'.bucket = w.bucket) : w'.Archived c := by
  have hdraft := hs.drafts.active t row hpub.found hpub.active
  refine h.kept hbucket (fun rk v r hr => ?_) ?_ (fun rk v r hr => ⟨r, hpub.row_stays hdraft hs.agrees hr⟩) fun rk v r m hr hm => ?_
  · rcases hpub.row_cases hdraft hr with hold | ⟨d, hd, rfl, -⟩
    · exact h.docs rk v r hold
    · exact ⟨d.key, hdraft.keyed.docKey hd⟩
  · rw [hmems]
    exact MemTableSet.apart_published hclear h.apart
  · rw [hmems] at hm
    rcases hm.of_published_clear hclear with ⟨x, hx, hkey, rfl⟩ | ⟨hold, -⟩
    · -- what the commit puts is newer than every row
      refine .inr fun hversion => ?_
      obtain rfl : w.nextVersion row = v := WithTop.coe_injective hversion
      obtain ⟨d, hd, hrk, -⟩ := hdraft.doc_of_write hx
      obtain rfl : d.rk = rk := hrk.symm.trans hkey
      exact absurd (hpub.rows_lt hdraft hs.agrees (PendingTxn.docAt_mem hd).1 hr) (lt_irrefl _)
    · exact .inl hold

end World.Archived

/-! ### Uploads -/

section Flushed

variable {chunkId : String} {nowMs : Int64} {entries : List MemEntry} {mt : MemTable} {rest : List MemTable} {file : Bytes}
  {header : ChunkHeader} {footer : ChunkFooter}

theorem MemTable.Built.keys_nodup (h : mt.Built) (hperm : entries.Perm mt.entries) : (entries.map (·.key)).Nodup := by
  refine (hperm.map _).nodup_iff.2 ?_
  have hkeys : mt.entries.map (·.key) = mt.map.toList.map (·.1) := by
    rw [MemTable.entries, List.map_map]
    exact List.map_congr_left fun x hx => (h.entry (Table.mem_toList.1 hx)).1
  rw [hkeys]
  exact Table.nodup_keys

theorem MemTable.Built.records_nodup (h : mt.Built) (hperm : entries.Perm mt.entries) :
    ((entries.filterMap Flush.chunkEntry).map recordOf).Nodup := by
  refine (h.keys_nodup hperm).sublist ?_
  clear hperm
  induction entries with
  | nil => exact .slnil
  | cons e entries ih =>
    cases hentry : Flush.chunkEntry e with
    | none =>
      rw [List.filterMap_cons_none hentry]
      exact ih.cons _
    | some ce =>
      obtain ⟨v, -, rfl⟩ := Flush.chunkEntry_eq_some hentry
      rw [List.filterMap_cons_some hentry]
      exact ih.cons_cons _

theorem MemTable.Built.uploads (h : mt.Built) (hperm : entries.Perm mt.entries) (hfits : Flush.Fits c chunkId entries)
    {e : ChunkEntry} (he : e ∈ entries.filterMap Flush.chunkEntry) :
    ∃ m, mt.map[recordOf e]? = some m ∧ m.commitVersion = ((e.commitVersion.toNat : Nat) : WithTop Nat) := by
  obtain ⟨m, hm, hentry⟩ := h.chunkEntry_of_record hperm he
  obtain ⟨v, hv, heq⟩ := Flush.chunkEntry_eq_some hentry
  have hmem : m ∈ entries := hperm.mem_iff.2 (MemTable.mem_entries.2 ⟨_, hm⟩)
  have hwidth := (hfits.widths m hmem v hv).1
  refine ⟨m, hm, hv.trans ?_⟩
  rw [heq, UInt64.toNat_ofNat_of_lt' hwidth]

theorem World.Filed.of_flushed {name : String} {header' : ChunkHeader} {es es' : List ChunkEntry}
    (hdecode : decodeChunk c file = .ok (header, es))
    (h : ((w.dequeued rest).flushed c chunkId mt entries file header footer).Filed c name header' es') :
    (name = Flush.s3Key c chunkId header ∧ header' = header ∧ es' = es) ∨
      (name ≠ Flush.s3Key c chunkId header ∧ w.Filed c name header' es') := by
  obtain ⟨file', hfile, hdecode'⟩ := h
  have hget : ((w.dequeued rest).flushed c chunkId mt entries file header footer).bucket[name]? =
      if Flush.s3Key c chunkId header = name then some file else w.bucket[name]? := Table.get_insert ..
  rw [hget] at hfile
  split at hfile
  case isTrue hname =>
    cases hfile
    obtain ⟨rfl, rfl⟩ := Prod.mk.inj (Except.ok.inj (hdecode.symm.trans hdecode'))
    exact .inl ⟨hname.symm, rfl, rfl⟩
  case isFalse hname => exact .inr ⟨fun heq => hname heq.symm, file', hfile, hdecode'⟩

theorem World.Archived.flushed (hzstd : c.Unzips)
    (h : w.Archived c) (hl : w.Layered c) (hqueue : w.mems.flushing = mt :: rest) (hperm : entries.Perm mt.entries)
    (hfresh : w.freshChunkId chunkId = true) (hfits : Flush.Fits c chunkId entries)
    (hfile : Flush.chunkFile c chunkId nowMs entries = .ok (some (file, header, footer))) :
    ((w.dequeued rest).flushed c chunkId mt entries file header footer).Archived c := by
  set w' := (w.dequeued rest).flushed c chunkId mt entries file header footer with hw'
  obtain ⟨hdecode, hid⟩ := (Flush.chunkFile_some hfile).decodeChunk hzstd hfits.chunkId hfits.fields hfits.footer
  obtain ⟨-, -, hobjects⟩ := World.freshChunkId_spec (c := c) hfresh
  have hmt : mt ∈ w.mems.active :: w.mems.flushing := by simp [hqueue]
  have hbuilt := hl.built mt hmt
  have hcases : ∀ {name header' es'}, w'.Filed c name header' es' →
      (name = Flush.s3Key c chunkId header ∧ header' = header ∧ es' = entries.filterMap Flush.chunkEntry) ∨
        (name ≠ Flush.s3Key c chunkId header ∧ w.Filed c name header' es') := fun hf => hf.of_flushed hdecode
  have hrows : ∀ (rk : RecordKey) (v : Nat) r, w.store.recordVersions[(rk, v)]? = some r →
      ∃ r', w'.store.recordVersions[(rk, v)]? = some r' := by
    intro rk v r hr
    exact ⟨_, recordVersions_flushed.trans (by rw [show (w.dequeued rest).store = w.store from rfl, hr]; rfl)⟩
  have hqueue' : (w.dequeued rest).Archived c :=
    h.dequeued (hqueue ▸ (List.sublist_cons_self mt rest).subperm)
  -- the other memtables share no key with the one that is written
  have hothers : ∀ mt' ∈ w.mems.active :: rest, ∀ (rk : RecordKey) m, mt.map[rk]? = some m → mt'.map[rk]? = none := by
    intro mt' hmt' rk m hm
    have hapart := h.apart
    rw [hqueue] at hapart
    obtain ⟨hactive, hrest⟩ := List.pairwise_cons.1 hapart
    obtain ⟨hhead, -⟩ := List.pairwise_cons.1 hrest
    have hnone : mt.map[rk]? ≠ none := by simp [hm]
    rcases List.mem_cons.1 hmt' with rfl | hmt'
    · exact (hactive mt (by simp) rk).resolve_right hnone
    · exact (hhead mt' hmt' rk).resolve_left hnone
  -- the versions that are written have rows, and were in no object
  have hnew : ∀ e ∈ entries.filterMap Flush.chunkEntry, w'.Uploaded e ∧ ∀ name' header' es', w.Filed c name' header' es' →
      ∀ e' ∈ es', recordOf e = recordOf e' → e.commitVersion ≠ e'.commitVersion := by
    intro e he
    obtain ⟨m, hm, hversion⟩ := hbuilt.uploads hperm hfits he
    obtain ⟨v, r, htops⟩ := hl.memtables _ m ⟨mt, hmt, hm⟩
    obtain rfl : v = e.commitVersion.toNat := WithTop.coe_injective (htops.version.symm.trans hversion)
    refine ⟨⟨hrows _ _ r htops.row, fun m' hm' => ?_⟩, fun name' header' es' hf' e' he' hrecord heq => ?_⟩
    · obtain ⟨mt', hmt', hget⟩ := hm'
      rw [hothers mt' hmt' _ m hm] at hget
      cases hget
    · refine (h.uploaded name' header' es' hf' e' he').gone m (hrecord ▸ ⟨mt, hmt, hm⟩) ?_
      rw [hversion, heq]
  refine ⟨fun rk v r hr => ?_, hqueue'.apart, fun name file' hobject => ?_, ?_, ?_, ?_, ?_⟩
  · obtain ⟨r₀, hr₀, -⟩ := Option.map_eq_some_iff.1 (recordVersions_flushed.symm.trans hr)
    exact h.docs rk v r₀ hr₀
  · have hget : w'.bucket[name]? = if Flush.s3Key c chunkId header = name then some file else w.bucket[name]? :=
      Table.get_insert ..
    rw [hget] at hobject
    split at hobject
    case isTrue hname =>
      cases hobject
      exact ⟨header, _, hdecode, by rw [hid, hname]⟩
    case isFalse => exact h.filed name file' hobject
  · -- a fresh id names no object that is there
    have hfreshId : ∀ name' header' es', w.Filed c name' header' es' → header'.chunkId ≠ chunkId := by
      rintro name' header' es' ⟨file', hfile', hdecode'⟩ rfl
      obtain ⟨header'', es'', hdecode'', hname⟩ := h.filed name' file' hfile'
      obtain ⟨rfl, -⟩ := Prod.mk.inj (Except.ok.inj (hdecode'.symm.trans hdecode''))
      rw [hname, hobjects header'] at hfile'
      cases hfile'
    intro name name' header₁ header₂ es₁ es₂ hf hf' heq
    rcases hcases hf with ⟨rfl, rfl, -⟩ | ⟨-, hold⟩ <;> rcases hcases hf' with ⟨rfl, rfl, -⟩ | ⟨-, hold'⟩
    · rfl
    · exact absurd (heq.symm.trans hid) (hfreshId _ _ _ hold')
    · exact absurd (heq.trans hid) (hfreshId _ _ _ hold)
    · exact h.ids name name' header₁ header₂ es₁ es₂ hold hold' heq
  · intro name header' es' hf e he
    rcases hcases hf with ⟨-, -, rfl⟩ | ⟨-, hold⟩
    · exact (hnew e he).1
    · obtain ⟨⟨r, hr⟩, hgone⟩ := h.uploaded name header' es' hold e he
      refine ⟨hrows _ _ r hr, fun m hm => hgone m ?_⟩
      obtain ⟨mt', hmt', hget⟩ := hm
      exact ⟨mt', MemTableSet.mem_requeued (fun x hx => hqueue ▸ List.mem_cons_of_mem _ hx) hmt', hget⟩
  · intro name header' es' hf
    rcases hcases hf with ⟨-, -, rfl⟩ | ⟨-, hold⟩
    · exact hbuilt.records_nodup hperm
    · exact h.within name header' es' hold
  · intro name name' header₁ header₂ es₁ es₂ hf hf' e he e' he' hrecord hversion
    rcases hcases hf with ⟨rfl, -, rfl⟩ | ⟨-, hold⟩ <;> rcases hcases hf' with ⟨rfl, -, rfl⟩ | ⟨-, hold'⟩
    · rfl
    · exact absurd hversion ((hnew e he).2 _ _ _ hold' e' he' hrecord)
    · exact absurd hversion.symm ((hnew e' he').2 _ _ _ hold e he hrecord.symm)
    · exact h.once name name' header₁ header₂ es₁ es₂ hold hold' e he e' he' hrecord hversion

end Flushed

/-! ## Runs -/

theorem World.Archived.empty : World.Archived c {} := by
  have hfiled : ∀ {name header es}, ¬ ({} : World).Filed c name header es := by
    rintro name header es ⟨file, hfile, -⟩
    simp at hfile
  refine ⟨fun rk v r hr => by simp at hr, by simp, fun name file hfile => by simp at hfile, ?_, ?_, ?_, ?_⟩
  · exact fun _ _ _ _ _ _ hf => absurd hf hfiled
  · exact fun _ _ _ hf => absurd hf hfiled
  · exact fun _ _ _ hf => absurd hf hfiled
  · exact fun _ _ _ _ _ _ hf => absurd hf hfiled

theorem World.Archived.step {op : NodeOp} (hzstd : c.Unzips)
    (h : w.Archived c) (hl : w.Layered c) (hs : Structured w) (hop : op.Layers env c w) (hstep : op.step env c w = some w') :
    w'.Archived c := by
  cases op with
  | request r =>
    obtain ⟨-, heffect, -, -⟩ := hs.step hop.whole hstep
    have hbucket := heffect.bucket
    cases ServerStep.of_effect hs.inv hop.whole heffect with
    | kept hcatalog hmems =>
      exact h.moved hbucket (catalog_lookup Store.recordVersions (fun _ => rfl) hcatalog) (hmems ▸ h.apart)
        (hmems ▸ fun _ _ hm => hm)
    | swept hreq =>
      subst hreq
      cases hop.keeps
    | published hreq hpub hstaged hmems =>
      subst hreq
      exact h.published hs hpub hmems (NodeOp.eachPut_commit hop.clear hpub.found hstaged) hbucket
  | rotate =>
    cases hstep
    exact h.moved rfl rfl (MemTableSet.apart_rotate h.apart) fun _ _ hm => hm.of_rotate
  | flush chunkId nowMs entries =>
    obtain ⟨mt, rest, hqueue, hcases⟩ := World.flush_cases hstep
    rcases hcases with rfl | rfl | ⟨file, header, footer, hperm, hfresh, -, hfile, rfl⟩
    · exact h.dequeued (hqueue ▸ (List.sublist_cons_self mt rest).subperm)
    · exact h.dequeued (hqueue ▸ (List.perm_append_singleton mt rest).subperm)
    · exact h.flushed hzstd hl hqueue hperm hfresh hop.fits hfile
  | failedFlush chunkId nowMs entries n =>
    obtain rfl : n = 0 := by simpa [NodeOp.whole] using hop.whole
    obtain ⟨mt, rest, hqueue, rfl⟩ := World.failedFlush_zero hstep
    exact h.dequeued (hqueue ▸ (List.perm_append_singleton mt rest).subperm)

theorem World.Archived.of_run {hist : List (World × NodeOp × World)} (hzstd : c.Unzips)
    (hjson : ∀ x, utf8 (env.jsonText x) ≠ []) (hrun : Run (NodeOp.step env c) {} hist w)
    (hcond : ∀ x ∈ hist, x.2.1.Layers env c x.1) : w.Archived c := by
  induction hrun with
  | nil => exact .empty
  | @snoc hist u v op hrun hstep ih =>
    have hfront : ∀ x ∈ hist, x.2.1.Layers env c x.1 := fun x hx => hcond x (by simp [hx])
    obtain ⟨horderly, -, hlayered⟩ := World.Layered.of_run hzstd hjson hrun hfront
    exact (ih hfront).step hzstd hlayered horderly.structured (hcond (u, op, v) (by simp)) hstep

/-! ## Rebuilding from the bucket -/

section Rebuild

variable {backend : Backend} {listed : List ListedObject}
  {order : List (RecordKey × PerKey) → List (RecordKey × PerKey)}

/-- A bucket listing is scanned to the objects of the bucket. -/
structure Scans (c : Codecs) (w : World) (backend : Backend) (listed : List ListedObject) (chunks : List Chunk) : Prop where
  scan : scanObjects c backend listed = .ok chunks
  names : (chunks.map (·.lo.key)).Nodup
  filed : ∀ ch ∈ chunks, w.Filed c ch.lo.key ch.header ch.entries
  complete : ∀ name header es, w.Filed c name header es → ∃ ch ∈ chunks, ch.entries = es

theorem World.Archived.scans (h : w.Archived c) (hbackend : backend.objects = w.bucket) (hlists : w.Lists listed) :
    ∃ chunks, Scans c w backend listed chunks := by
  have hscan : ∀ lo ∈ listed, ∃ header es, w.Filed c lo.key header es ∧
      scanObject c backend lo = .ok (some ⟨lo, header, es⟩) := by
    intro lo hlo
    obtain ⟨⟨name, file⟩, hobject, hname⟩ := List.mem_map.1 (hlists.mem_iff.1 (List.mem_map_of_mem hlo))
    obtain rfl : name = lo.key := hname
    have hobject := Table.mem_toList.1 hobject
    obtain ⟨header, es, hdecode, hkey⟩ := h.filed _ file hobject
    refine ⟨header, es, ⟨file, hobject, hdecode⟩, scanObject_of_decodeChunk ?_ (hbackend ▸ hobject) hdecode⟩
    refine List.isSuffixOf_iff_suffix.2 ?_
    rw [hkey, Flush.s3Key, String.toList_append]
    exact List.suffix_append _ _
  have hchunk : ∀ lo ∈ listed, ∃ ch, chunkAt c backend lo = [ch] ∧ ch.lo = lo ∧ w.Filed c ch.lo.key ch.header ch.entries := by
    intro lo hlo
    obtain ⟨header, es, hfiled, hlo⟩ := hscan lo hlo
    exact ⟨⟨lo, header, es⟩, by rw [chunkAt, hlo]; rfl, rfl, hfiled⟩
  have hnames : (listed.flatMap (chunkAt c backend)).map (·.lo.key) = listed.map (·.key) := by
    rw [List.map_flatMap]
    have hsingle : ∀ lo ∈ listed, (chunkAt c backend lo).map (·.lo.key) = [lo.key] := by
      intro lo hlo
      obtain ⟨ch, hch, rfl, -⟩ := hchunk lo hlo
      rw [hch]
      rfl
    rw [List.flatMap_congr hsingle, List.map_eq_flatMap]
  have hmem : ∀ ch, ch ∈ listed.flatMap (chunkAt c backend) ↔ ∃ lo ∈ listed, chunkAt c backend lo = [ch] := by
    intro ch
    rw [List.mem_flatMap]
    refine exists_congr fun lo => and_congr_right fun hlo => ?_
    obtain ⟨ch', hch', -⟩ := hchunk lo hlo
    rw [hch']
    simp [eq_comm]
  refine ⟨_, scanObjects_eq_ok.2 ⟨fun lo hlo => ?_, rfl⟩, ?_, fun ch hch => ?_, fun name header es hf => ?_⟩
  · obtain ⟨header, es, -, hlo⟩ := hscan lo hlo
    exact ⟨_, hlo⟩
  · rw [hnames]
    exact hlists.nodup_iff.2 Table.nodup_keys
  · obtain ⟨lo, hlo, hone⟩ := (hmem ch).1 hch
    obtain ⟨ch', hch', -, hfiled⟩ := hchunk lo hlo
    obtain rfl : ch' = ch := by simpa using hch'.symm.trans hone
    exact hfiled
  · obtain ⟨file, hfile, -⟩ := id hf
    have hname : name ∈ listed.map (·.key) :=
      hlists.mem_iff.2 (List.mem_map.2 ⟨(name, file), Table.mem_toList.2 hfile, rfl⟩)
    obtain ⟨lo, hlo, rfl⟩ := List.mem_map.1 hname
    obtain ⟨ch, hch, rfl, hfiled⟩ := hchunk lo hlo
    exact ⟨ch, (hmem ch).2 ⟨_, hlo, hch⟩, (hfiled.unique hf).2⟩

theorem World.Archived.coherent {chunks : List Chunk} (h : w.Archived c) (hscans : Scans c w backend listed chunks) :
    Coherent chunks := by
  have hnames := List.pairwise_map.1 hscans.names
  refine ⟨?_, fun e he => ?_, ?_⟩
  · refine List.pairwise_map.2 (hnames.imp_of_mem fun {a b} ha hb hne heq => hne ?_)
    exact h.ids _ _ _ _ _ _ (hscans.filed a ha) (hscans.filed b hb) heq
  · obtain ⟨ch, hch, he⟩ := mem_entriesOf.1 he
    obtain ⟨⟨r, hr⟩, -⟩ := h.uploaded _ _ _ (hscans.filed ch hch) e he
    obtain ⟨key, hkey⟩ := h.docs _ _ r hr
    exact hkey.plain
  · rw [entriesOf, List.map_flatMap]
    refine List.nodup_flatMap.2 ⟨fun ch hch => ?_, hnames.imp_of_mem fun {a b} ha hb hne x hx hx' => hne ?_⟩
    · refine List.pairwise_map.2 ((List.pairwise_map.1 (h.within _ _ _ (hscans.filed ch hch))).imp fun hne heq => hne ?_)
      simp only [Prod.mk.injEq] at heq
      simp [recordOf, heq]
    · obtain ⟨e, he, rfl⟩ := List.mem_map.1 hx
      obtain ⟨e', he', heq⟩ := List.mem_map.1 hx'
      simp only [Prod.mk.injEq] at heq
      exact h.once _ _ _ _ _ _ (hscans.filed a ha) (hscans.filed b hb) e he e' he' (by simp [recordOf, heq]) heq.2.2.2.symm

end Rebuild

/-- If failed flushes fail before their upload, no commit writes a key that an immutable memtable still holds, and the
chunks have room for what is written, a rebuild from the bucket returns, and each version in the bucket is in the
chain of its record once. -/
theorem rebuild_takes_versions_once {hist : List (World × NodeOp × World)}
    (hzstd : ∀ body compressed, c.zstdEncode body = .ok compressed → c.zstdDecode compressed = .ok body)
    (hjson : ∀ x, utf8 (env.jsonText x) ≠ []) (hrun : Run (NodeOp.step env c) {} hist w)
    (hcond : ∀ x ∈ hist, x.2.1.Layers env c x.1) {backend : Backend} (hbackend : backend.objects = w.bucket)
    {listed : List ListedObject} (hlists : w.Lists listed)
    (order : List (RecordKey × PerKey) → List (RecordKey × PerKey)) : ∃ report s,
    (rebuild c backend (.ok listed) order).run RebuildAct.exec {} = (.ok report, s) ∧
    ∀ name header es, w.Filed c name header es → ∀ e ∈ es,
      ((s.readChain (Rebuild.recordKey e.space e.table e.recordId)).entries.map (·.commitVersion)).count
        e.commitVersion.toNat = 1 := by
  have harchived := World.Archived.of_run hzstd hjson hrun hcond
  obtain ⟨chunks, hscans⟩ := harchived.scans hbackend hlists
  obtain ⟨chains, hbatch, hrebuild⟩ := (harchived.coherent hscans).rebuild_ok hscans.scan order
  refine ⟨_, _, hrebuild, fun name header es hf e he => ?_⟩
  obtain ⟨ch, hch, rfl⟩ := hscans.complete name header es hf
  obtain ⟨-, hext⟩ := chainAt_batch hbatch
  obtain ⟨-, hasc, hversions⟩ := hext (Rebuild.recordKey e.space e.table e.recordId)
  have hnodup : ((chainAt chains (Rebuild.recordKey e.space e.table e.recordId)).map (·.commitVersion)).Nodup :=
    List.pairwise_map.2 (hasc.imp fun hlt => hlt.ne)
  obtain ⟨h, hh, hentry⟩ := exists_mem_found (mem_entriesOf.2 ⟨ch, hch, he⟩)
  have hkey := (entry_mem_of_mem_found hh).2
  refine List.count_eq_one_of_mem hnodup ((hversions _).2 ⟨⟨_, mem_chainBatch.2 ⟨h, hh, rfl⟩, ?_, ?_⟩, by simp⟩)
  · rw [HistoricalRecord.chainEntry, hkey, hentry]
    rfl
  · rw [HistoricalRecord.chainEntry, hentry]
    rfl

/-- A write of `null` is uploaded by the second attempt to flush it; the first one fails after some of its steps. -/
def retryOps (n : Nat) : List NodeOp :=
  writeOps "T" .null ++ [.request (.commitTxn "T" fun _ => false), .rotate, .failedFlush "d" 0 [nullEntry 1] n,
    .flush "c" 0 [nullEntry 1]]

/-- Some entry of an object passes a test. -/
def World.anyFiled (c : Codecs) (w : World) (name : String) (p : ChunkEntry → Bool) : Bool :=
  (w.bucket[name]?).any fun file => (decodeChunk c file).toOption.any fun x => x.2.any p

theorem World.exists_filed {name : String} {p : ChunkEntry → Bool} (h : w.anyFiled c name p = true) :
    ∃ header es, w.Filed c name header es ∧ ∃ e ∈ es, p e = true := by
  obtain ⟨file, hfile, h⟩ := (Option.any_eq_true ..).1 h
  obtain ⟨⟨header, es⟩, hdecode, h⟩ := (Option.any_eq_true ..).1 h
  obtain ⟨e, he, hp⟩ := List.any_eq_true.1 h
  refine ⟨header, es, ⟨file, hfile, ?_⟩, e, he, hp⟩
  cases hd : decodeChunk c file with
  | error x => simp [hd, Except.toOption] at hdecode
  | ok r => rw [← Option.some.inj ((congrArg Except.toOption hd).symm.trans hdecode)]

theorem exists_retried (f : World → Bool) (h : ((exec layeredStep (retryOps 0) {}).any fun w =>
      decide (w.bucket.toList.map (·.1) = ["_xtable/s/t/5/c.xtc"]) &&
        w.anyFiled .stored "_xtable/s/t/5/c.xtc" (fun e => recordOf e = ("s", "t", "r") && e.commitVersion = 1) && f w) = true) :
    ∃ hist w, Run (NodeOp.step .stored .stored) {} hist w ∧ (∀ x ∈ hist, x.2.1.Layers .stored .stored x.1) ∧
      w.Lists [⟨"_xtable/s/t/5/c.xtc", 0, ""⟩] ∧ (∃ name header es, w.Filed .stored name header es ∧
        ∃ e ∈ es, recordOf e = ("s", "t", "r") ∧ e.commitVersion = 1) ∧ f w = true := by
  obtain ⟨w, hguarded, htest⟩ := Run.exists_of_exec layeredStep {} (retryOps 0) _ h
  obtain ⟨hrun, hguard⟩ := hguarded.of_guarded
  simp only [Bool.and_eq_true, decide_eq_true_eq] at htest hguard
  obtain ⟨⟨hbucket, hfiled⟩, hf⟩ := htest
  obtain ⟨header, es, hfiled, e, he, hp⟩ := World.exists_filed hfiled
  simp only [Bool.and_eq_true, decide_eq_true_eq] at hp
  refine ⟨_, w, hrun, fun x hx => NodeOp.layers_of_plain (nullEntry_fits (.inl rfl)) (hguard x hx).1 (hguard x hx).2, ?_,
    ⟨_, header, es, hfiled, e, he, hp⟩, hf⟩
  rw [World.Lists, hbucket]
  exact .refl _

theorem rebuild_takes_versions_once_retried : ∃ hist w, Run (NodeOp.step .stored .stored) {} hist w ∧
    (∀ x ∈ hist, x.2.1.Layers .stored .stored x.1) ∧ w.Lists [⟨"_xtable/s/t/5/c.xtc", 0, ""⟩] ∧ ∃ report s,
    (rebuild .stored ⟨w.bucket, id, id⟩ (.ok [⟨"_xtable/s/t/5/c.xtc", 0, ""⟩]) id).run RebuildAct.exec {} = (.ok report, s) ∧
    ((s.readChain "_xtable/s/t/r").entries.map (·.commitVersion)).count 1 = 1 := by
  obtain ⟨hist, w, hrun, hcond, hlists, ⟨name, header, es, hfiled, e, he, hrk, hversion⟩, -⟩ :=
    exists_retried (fun _ => true) (by decide +kernel)
  have hbackend : (⟨w.bucket, id, id⟩ : Backend).objects = w.bucket := rfl
  obtain ⟨report, s, hrebuild, honce⟩ := rebuild_takes_versions_once Codecs.stored_lossless.zstd
    SpaceEnv.stored_jsonText hrun hcond hbackend hlists id
  have hcount := honce name header es hfiled e he
  obtain ⟨hspace, htable, hid⟩ : e.space = "s" ∧ e.table = "t" ∧ e.recordId = "r" := by simpa [recordOf] using hrk
  rw [hspace, htable, hid, hversion] at hcount
  exact ⟨hist, w, hrun, hcond, hlists, report, s, hrebuild, hcount⟩

/-- A flush that succeeds writes the first version, as chunk `c`. -/
def NodeOp.flushesFirst : NodeOp → Bool
  | .flush chunkId _ entries => chunkId = "c" && entries = [nullEntry 1]
  | _ => true

/-- The first attempt fails after its upload, so that the two objects of the bucket hold the same version. -/
theorem rebuild_refuses_retried : ∃ hist w, Run (NodeOp.step .stored .stored) {} hist w ∧
    (∀ x ∈ hist, x.2.1.apart .stored x.1 = true ∧ x.2.1.collects = false ∧ x.2.1.eachPut MemTableSet.clear x.1 = true ∧
      x.2.1.Fits .stored) ∧
    w.Lists [⟨"_xtable/s/t/5/c.xtc", 0, ""⟩, ⟨"_xtable/s/t/5/d.xtc", 0, ""⟩] ∧ ∃ s,
    (rebuild .stored ⟨w.bucket, id, id⟩ (.ok [⟨"_xtable/s/t/5/c.xtc", 0, ""⟩, ⟨"_xtable/s/t/5/d.xtc", 0, ""⟩]) id).run
      RebuildAct.exec {} =
      (.error (.error (.internal "chain append not monotonic for key _xtable/s/t/r: latest=1 new=1")), s) := by
  obtain ⟨w, hguarded, htest⟩ := Run.exists_of_exec
    (guarded (fun w op => op.apart .stored w && !op.collects && op.eachPut MemTableSet.clear w && op.flushesFirst)
      (NodeOp.step .stored .stored)) {} (retryOps 1)
    (fun w => decide (w.bucket.toList.map (·.1) = ["_xtable/s/t/5/c.xtc", "_xtable/s/t/5/d.xtc"] ∧
      ((rebuild .stored ⟨w.bucket, id, id⟩ (.ok [⟨"_xtable/s/t/5/c.xtc", 0, ""⟩, ⟨"_xtable/s/t/5/d.xtc", 0, ""⟩]) id).run
        RebuildAct.exec {}).1 =
        .error (.error (.internal "chain append not monotonic for key _xtable/s/t/r: latest=1 new=1"))))
    (by decide +kernel)
  obtain ⟨hbucket, hrefused⟩ := of_decide_eq_true htest
  obtain ⟨hrun, hguard⟩ := hguarded.of_guarded
  simp only [Bool.and_eq_true, Bool.not_eq_true'] at hguard
  refine ⟨_, w, hrun, fun x hx => ?_, ?_, _, Prod.ext hrefused rfl⟩
  · obtain ⟨⟨⟨hapart, hkeeps⟩, hclear⟩, hflush⟩ := hguard x hx
    refine ⟨hapart, hkeeps, hclear, ?_⟩
    cases hop : x.2.1 with
    | flush chunkId nowMs entries =>
      rw [hop, NodeOp.flushesFirst, Bool.and_eq_true, decide_eq_true_eq, decide_eq_true_eq] at hflush
      obtain ⟨rfl, rfl⟩ := hflush
      exact nullEntry_fits (.inl rfl)
    | request | rotate | failedFlush => exact True.intro
  · rw [World.Lists, hbucket]
    exact .refl _

/-! ## The keys of the chains -/

theorem DocKey.rebuilt {key : String} (h : DocKey rk key) (hschema : rk.2.1 = "_schema") :
    Rebuild.recordKey rk.1 rk.2.1 rk.2.2 = key := by
  cases h with
  | record h => exact absurd hschema (recordKeyOf_of_recordKey h).reserved
  | schema h =>
    refine String.toList_injective ?_
    rw [(schemaKeyOf_of_schemaKey h).eq]
    simp [Rebuild.recordKey, schemaId, String.toList_append]

/-- The chain and the version row under a key are there, and a version is the latest in both. -/
structure Store.LatestUnder (s : Store) (key : String) (v : Nat) : Prop where
  chain : (s.readChain key).entries ≠ []
  latest : (s.readChain key).latestCommitVersion = v
  versions : (s.versions[key]?).map (·.latestVersion) = some v

theorem Rebuild.Coherent.latestUnder {chunks : List Chunk} {chains : Table String VersionChain} {e : ChunkEntry}
    {order : List (RecordKey × PerKey) → List (RecordKey × PerKey)} (hc : Coherent chunks) (horder : ∀ l, (order l).Perm l)
    (hbatch : (chainBatch chunks).foldlM Store.appendChainEntry ∅ = .ok chains) (he : e ∈ entriesOf chunks)
    (hnewest : ∀ e' ∈ entriesOf chunks, recordOf e' = recordOf e → e'.commitVersion.toNat ≤ e.commitVersion.toNat) :
    (filled order chunks chains {}).LatestUnder (Rebuild.recordKey e.space e.table e.recordId) e.commitVersion.toNat := by
  set key := Rebuild.recordKey e.space e.table e.recordId with hkeydef
  obtain ⟨h, hh, rfl⟩ := exists_mem_found he
  obtain ⟨-, hkey⟩ := entry_mem_of_mem_found hh
  have hfound : ∀ h' ∈ found chunks, h'.key = h.key → h'.entry.commitVersion.toNat ≤ h.entry.commitVersion.toNat := by
    intro h' hh' heq
    obtain ⟨hmem', hkey'⟩ := entry_mem_of_mem_found hh'
    exact hnewest _ hmem' (hkey'.symm.trans (heq.trans hkey))
  have hrecord : Rebuild.recordKey h.key.1 h.key.2.1 h.key.2.2 = key := by rw [hkey]; rfl
  obtain ⟨hwf, hext⟩ := chainAt_batch hbatch
  obtain ⟨-, hasc, hversions⟩ := hext key
  have hchain : ((filled order chunks chains {}).readChain key).entries = chainAt chains key := rfl
  have hmem : h.entry.commitVersion.toNat ∈ (chainAt chains key).map (·.commitVersion) :=
    (hversions _).2 ⟨⟨_, mem_chainBatch.2 ⟨h, hh, rfl⟩, hrecord, rfl⟩, by simp⟩
  obtain ⟨entry, hentry, hversion⟩ := List.mem_map.1 hmem
  have hne : ((filled order chunks chains {}).readChain key).entries ≠ [] := hchain ▸ List.ne_nil_of_mem hentry
  refine ⟨hne, le_antisymm ?_ ?_, ?_⟩
  · obtain ⟨last, hlast⟩ := Option.isSome_iff_exists.1 (List.getLast?_isSome.2 hne)
    have hlatest : ((filled order chunks chains {}).readChain key).latestCommitVersion = last.commitVersion := by
      rw [VersionChain.latestCommitVersion, hlast]
      rfl
    have hlastmem : last.commitVersion ∈ (chainAt chains key).map (·.commitVersion) :=
      List.mem_map_of_mem (hchain ▸ List.mem_of_getLast? hlast)
    obtain ⟨⟨item, hitem, hitemKey, hitemVersion⟩, -⟩ := (hversions _).1 hlastmem
    obtain ⟨h', hh', rfl⟩ := mem_chainBatch.1 hitem
    rw [hlatest, ← hitemVersion]
    exact hfound h' hh' (hc.key_inj hh' hh (hitemKey.trans hrecord.symm))
  · rw [← hversion]
    exact le_latestCommitVersion (hchain ▸ hasc) (hchain ▸ hentry)
  · obtain ⟨p, hp⟩ := (NewestOf.fold (found chunks)).covered h hh
    obtain ⟨h', hh', hkey', rfl, hmax⟩ := (NewestOf.fold (found chunks)).row h.key p hp
    have hget : (filled order chunks chains {}).versions[key]? =
        some (versionRecordFromEntry h'.perKey.entry h'.perKey.chunkS3Key h'.perKey.size) := by
      refine Table.get_insertAll_of_mem ?_ (List.mem_map.2 ⟨(h.key, h'.perKey), (horder _).mem_iff.2 (Table.mem_toList.2 hp), ?_⟩)
      · rw [List.map_map]
        exact hc.versionUpdate_nodup horder
      · rw [versionUpdate, hrecord]
    rw [hget, Option.map_some]
    exact congrArg some (le_antisymm (hfound h' hh' hkey') (hmax h hh rfl))

/-- The versions of a record or schema that the bucket holds. -/
def World.flushedVersions (c : Codecs) (w : World) (rk : RecordKey) : Set Nat :=
  {v | ∃ name header es, w.Filed c name header es ∧ ∃ e ∈ es, recordOf e = rk ∧ e.commitVersion.toNat = v}

theorem World.exists_newest_flushed (h : (w.flushedVersions c rk).Nonempty) : ∃ v, IsGreatest (w.flushedVersions c rk) v := by
  have hbdd : BddAbove (w.flushedVersions c rk) := by
    refine ⟨2 ^ 64, ?_⟩
    rintro _ ⟨-, -, -, -, e, -, -, rfl⟩
    exact e.commitVersion.toNat_lt.le
  exact ⟨_, Nat.sSup_mem h hbdd, fun _ hv => le_csSup hbdd hv⟩

/-- In the same runs, the chain and the version row of a schema document are under the key that its commit used, and
have its newest version in the bucket. -/
theorem rebuild_restores_schema_keys {hist : List (World × NodeOp × World)}
    (hzstd : ∀ body compressed, c.zstdEncode body = .ok compressed → c.zstdDecode compressed = .ok body)
    (hjson : ∀ x, utf8 (env.jsonText x) ≠ []) (hrun : Run (NodeOp.step env c) {} hist w)
    (hcond : ∀ x ∈ hist, x.2.1.Layers env c x.1) {backend : Backend} (hbackend : backend.objects = w.bucket)
    {listed : List ListedObject} (hlists : w.Lists listed)
    {order : List (RecordKey × PerKey) → List (RecordKey × PerKey)} (horder : ∀ l, (order l).Perm l) : ∃ report s,
    (rebuild c backend (.ok listed) order).run RebuildAct.exec {} = (.ok report, s) ∧
    ∀ rk key, DocKey rk key → rk.2.1 = "_schema" → (w.flushedVersions c rk).Nonempty →
      ∃ v, IsGreatest (w.flushedVersions c rk) v ∧ s.LatestUnder key v := by
  have harchived := World.Archived.of_run hzstd hjson hrun hcond
  obtain ⟨chunks, hscans⟩ := harchived.scans hbackend hlists
  have hcoherent := harchived.coherent hscans
  obtain ⟨chains, hbatch, hrebuild⟩ := hcoherent.rebuild_ok hscans.scan order
  refine ⟨_, _, hrebuild, fun rk key hkey hschema hflushed => ?_⟩
  obtain ⟨v, hv⟩ := World.exists_newest_flushed hflushed
  obtain ⟨⟨name, header, es, hfiled, e, he, rfl, rfl⟩, hmax⟩ := id hv
  obtain ⟨ch, hch, rfl⟩ := hscans.complete name header es hfiled
  have hlatest := hcoherent.latestUnder horder hbatch (mem_entriesOf.2 ⟨ch, hch, he⟩) fun e' he' heq => by
    obtain ⟨ch', hch', he'⟩ := mem_entriesOf.1 he'
    exact hmax ⟨_, _, _, hscans.filed ch' hch', e', he', heq, rfl⟩
  have hsame : Rebuild.recordKey e.space e.table e.recordId = key := hkey.rebuilt hschema
  exact ⟨_, hv, hsame ▸ hlatest⟩

/-- What a flush finds of the schema that a server registers. -/
def schemaEntry : MemEntry :=
  ⟨("s", "_schema", "n/v1.json"), utf8 "\x7b\"type\":\"string\"\x7d", (1 : Nat), "T", false, some "application/schema+json", [],
    0, 1, 17⟩

theorem schemaEntry_fits : Flush.Fits .stored "c" [schemaEntry] := by
  let ce : ChunkEntry := ⟨"s", "_schema", "n/v1.json", schemaEntry.value, 1, "T", false, some "application/schema+json", [], 0, 1⟩
  have hvisible : [schemaEntry].filterMap Flush.chunkEntry = [ce] := rfl
  refine ⟨by decide, fun e he u hu => ?_, fun e he => ?_, ?_⟩
  · obtain rfl := List.mem_singleton.1 he
    obtain rfl : 1 = u := WithTop.coe_injective hu
    decide
  · rw [hvisible] at he
    obtain rfl := List.mem_singleton.1 he
    refine ⟨by decide, by decide, by decide, by decide, by decide, fun ct hct => ?_, by decide, by decide, by decide⟩
    cases hct
    decide
  · rw [hvisible]
    let k : KeyIndexEntry := ⟨utf8 "s\x00_schema\x00n/v1.json", 0, 1⟩
    have hkeys : sampleKeys .stored 0 0 [ce] = .ok [k] := by decide +kernel
    have hindex : Codecs.stored.bincodeSerialize [k] = .ok (leBytes 8 1 ++ indexEntryBytes k) := by decide +kernel
    exact .of_eq hkeys hindex (by decide +kernel)

theorem rebuild_restores_schema_keys_registered :
    ∃ hist w, Run (NodeOp.step .stored .stored) {} hist w ∧ (∀ x ∈ hist, x.2.1.Layers .stored .stored x.1) ∧
    w.Lists [⟨"_xtable/s/_schema/19/c.xtc", 0, ""⟩] ∧ ∃ report s,
    (rebuild .stored ⟨w.bucket, id, id⟩ (.ok [⟨"_xtable/s/_schema/19/c.xtc", 0, ""⟩]) id).run RebuildAct.exec {} =
      (.ok report, s) ∧
    ∃ v, IsGreatest (w.flushedVersions .stored ("s", "_schema", "n/v1.json")) v ∧
      s.LatestUnder "_xtable/s/_schema/n/v1.json" v := by
  obtain ⟨w, hguarded, htest⟩ := Run.exists_of_exec
    (guarded (fun w op => NodeOp.plain [schemaEntry] w op && op.eachPut MemTableSet.clear w)
      (NodeOp.step .stored .stored)) {} schemaOps
    (fun w => decide (w.bucket.toList.map (·.1) = ["_xtable/s/_schema/19/c.xtc"]) &&
      w.anyFiled .stored "_xtable/s/_schema/19/c.xtc" fun e => recordOf e = ("s", "_schema", "n/v1.json")) (by decide +kernel)
  obtain ⟨hrun, hguard⟩ := hguarded.of_guarded
  simp only [Bool.and_eq_true, decide_eq_true_eq] at htest hguard
  obtain ⟨hbucket, hfiled⟩ := htest
  obtain ⟨header, es, hfiled, e, he, hrk⟩ := World.exists_filed hfiled
  generalize history _ _ _ = hist at hrun hguard
  have hcond : ∀ x ∈ hist, x.2.1.Layers .stored .stored x.1 :=
    fun x hx => NodeOp.layers_of_plain schemaEntry_fits (hguard x hx).1 (hguard x hx).2
  have hlists : w.Lists [⟨"_xtable/s/_schema/19/c.xtc", 0, ""⟩] := by
    rw [World.Lists, hbucket]
    exact .refl _
  have hbackend : (⟨w.bucket, id, id⟩ : Backend).objects = w.bucket := rfl
  obtain ⟨report, s, hrebuild, hlatest⟩ := rebuild_restores_schema_keys Codecs.stored_lossless.zstd
    SpaceEnv.stored_jsonText hrun hcond hbackend hlists (fun l => List.Perm.refl (id l))
  have hkey : schemaKey "s" "n" 1 = .ok "_xtable/s/_schema/n/v1.json" := rfl
  exact ⟨hist, w, hrun, hcond, hlists, report, s, hrebuild,
    hlatest _ _ (.schema hkey) rfl ⟨_, _, header, es, hfiled, e, he, of_decide_eq_true hrk, rfl⟩⟩

/-- A rebuild files a record under a key without the `.json` of the key that its commit used. -/
theorem rebuild_forgets_record_keys : ∃ hist w, Run (NodeOp.step .stored .stored) {} hist w ∧
    (∀ x ∈ hist, x.2.1.Layers .stored .stored x.1) ∧ w.Lists [⟨"_xtable/s/t/5/c.xtc", 0, ""⟩] ∧
    recordKey "s" "t" "r" = .ok "_xtable/s/t/r.json" ∧ 1 ∈ w.flushedVersions .stored ("s", "t", "r") ∧ ∃ report s,
    (rebuild .stored ⟨w.bucket, id, id⟩ (.ok [⟨"_xtable/s/t/5/c.xtc", 0, ""⟩]) id).run RebuildAct.exec {} = (.ok report, s) ∧
    (s.readChain "_xtable/s/t/r.json").entries = [] ∧ (s.versions["_xtable/s/t/r.json"]?).isNone = true := by
  let out (w : World) :=
    (rebuild .stored ⟨w.bucket, id, id⟩ (.ok [⟨"_xtable/s/t/5/c.xtc", 0, ""⟩]) id).run RebuildAct.exec {}
  obtain ⟨hist, w, hrun, hcond, hlists, ⟨name, header, es, hfiled, e, he, hrk, hversion⟩, htest⟩ :=
    exists_retried (fun w => decide ((out w).1 = .ok ⟨1, 1, 0⟩ ∧ ((out w).2.readChain "_xtable/s/t/r.json").entries = [] ∧
      ((out w).2.versions["_xtable/s/t/r.json"]?).isNone = true)) (by decide +kernel)
  obtain ⟨hok, hchain, hrow⟩ := of_decide_eq_true htest
  exact ⟨hist, w, hrun, hcond, hlists, rfl, ⟨name, header, es, hfiled, e, he, hrk, by rw [hversion]; rfl⟩, _, _,
    Prod.ext hok rfl, hchain, hrow⟩

end Xtable
