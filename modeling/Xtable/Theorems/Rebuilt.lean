import Xtable.Theorems.Chains
import Xtable.Theorems.Collection
import Xtable.Theorems.Keys

/-! A rebuild overwrites four tables with the rows of the chunks it found, appends all entries to the chains in one
    batch, and sets the version counter last. -/

namespace Xtable

variable {chunks : List Chunk} {chains : Table String VersionChain} {listed : List ListedObject} {backend : Backend}
  {h : HistoricalRecord} {c : Codecs} {e : ChunkEntry}

namespace Rebuild

/-! ## What a rebuild writes -/

/-- Every entry of the chunks, in the order of the scan. -/
def found (chunks : List Chunk) : List HistoricalRecord := chunks.flatMap Chunk.historical

/-- The newest entry of each record. -/
def newest (chunks : List Chunk) : Table RecordKey PerKey := (found chunks).foldl notePerKey ∅

def chunkRow (ch : Chunk) : String × ChunkIndexEntry := (ch.header.chunkId, ch.indexEntry)

def latestRow (x : RecordKey × PerKey) : RecordKey × StoredRecord :=
  (x.1, ⟨recordIndexFromEntry x.2.entry x.2.chunkId, ""⟩)

def HistoricalRecord.row (h : HistoricalRecord) : (RecordKey × Nat) × StoredRecordVersion :=
  ((h.key, h.entry.commitVersion.toNat), ⟨recordIndexFromEntry h.entry h.chunkId, h.entry.value⟩)

def historyRows (chunks : List Chunk) : List ((RecordKey × Nat) × StoredRecordVersion) :=
  ((found chunks).insertionSort historyLe).map HistoricalRecord.row

/-- The entries that are appended to the chains, in the order in which they are appended. -/
def chainBatch (chunks : List Chunk) : List (String × VersionEntry × Nat) :=
  (((found chunks).insertionSort historyLe).map HistoricalRecord.chainEntry).insertionSort Store.batchLe

def topVersion (chunks : List Chunk) : Nat :=
  (found chunks).foldl (fun v h => max v h.entry.commitVersion.toNat) 0

/-- The tables whose rows are overwritten one by one. -/
def overwritten (order : List (RecordKey × PerKey) → List (RecordKey × PerKey)) (chunks : List Chunk) (s : Store) :
    Store :=
  { s with
    chunkIndex := s.chunkIndex.insertAll (chunks.map chunkRow)
    recordIndex := s.recordIndex.insertAll ((order (newest chunks).toList).map latestRow)
    versions := s.versions.insertAll ((order (newest chunks).toList).map versionUpdate)
    recordVersions := s.recordVersions.insertAll (historyRows chunks) }

/-- The store after a rebuild that made these chains. -/
def filled (order : List (RecordKey × PerKey) → List (RecordKey × PerKey)) (chunks : List Chunk)
    (chains : Table String VersionChain) (s : Store) : Store :=
  { overwritten order chunks s with versionChains := chains, globalVersion := topVersion chunks }

def reportOf (scanned : Nat) (chunks : List Chunk) : Report :=
  ⟨scanned, ((found chunks).insertionSort historyLe).length, 0⟩

/-! ## The phases of a rebuild -/

section Phases

variable (order : List (RecordKey × PerKey) → List (RecordKey × PerKey)) (chunks : List Chunk) (s : Store)

def chunkPhase : Rebuilder Unit :=
  Prog.forEach chunks fun ch => ask (.putChunkIndex ch.header.chunkId ch.indexEntry)

def latestPhase (rows : List (RecordKey × PerKey)) : Rebuilder Unit :=
  Prog.forEach rows fun x => ask (.putRecordIndex x.1 (recordIndexFromEntry x.2.entry x.2.chunkId))

def versionsPhase (rows : List (RecordKey × PerKey)) : Rebuilder Unit :=
  unlessEmpty rows (ask (.putVersionsBulk (rows.map versionUpdate)))

def historyPhase (hs : List HistoricalRecord) : Rebuilder Unit :=
  unlessEmpty hs (ask (.putRecordVersionsBulk (hs.map HistoricalRecord.update)))

def chainPhase (hs : List HistoricalRecord) : Rebuilder Unit :=
  unlessEmpty hs do
    match ← appendChainEntriesBulk (hs.map HistoricalRecord.chainEntry) with
    | .ok _ => pure ()
    | .error x => Prog.fail (.error x)

theorem persist_eq (scanned : Nat) : persist order scanned chunks =
    (chunkPhase chunks).bind fun _ => (latestPhase (order (newest chunks).toList)).bind fun _ =>
      (versionsPhase (order (newest chunks).toList)).bind fun _ =>
      (historyPhase ((found chunks).insertionSort historyLe)).bind fun _ =>
      (chainPhase ((found chunks).insertionSort historyLe)).bind fun _ =>
      (ask (.setGlobalVersion (topVersion chunks))).bind fun _ =>
      .ret (reportOf scanned chunks) := rfl

theorem chunkPhase_run : (chunkPhase chunks).run RebuildAct.exec s =
    (.ok (), { s with chunkIndex := s.chunkIndex.insertAll (chunks.map chunkRow) }) := by
  induction chunks generalizing s with
  | nil => rfl
  | cons ch chunks ih => exact ih _

theorem latestPhase_run (rows : List (RecordKey × PerKey)) : (latestPhase rows).run RebuildAct.exec s =
    (.ok (), { s with recordIndex := s.recordIndex.insertAll (rows.map latestRow) }) := by
  induction rows generalizing s with
  | nil => rfl
  | cons x rows ih => exact ih _

theorem versionsPhase_run (rows : List (RecordKey × PerKey)) : (versionsPhase rows).run RebuildAct.exec s =
    (.ok (), { s with versions := s.versions.insertAll (rows.map versionUpdate) }) := by
  cases rows <;> rfl

theorem putRecordVersionsBulk_eq (hs : List HistoricalRecord) :
    s.putRecordVersionsBulk (hs.map HistoricalRecord.update) =
      { s with recordVersions := s.recordVersions.insertAll (hs.map HistoricalRecord.row) } := by
  induction hs generalizing s with
  | nil => rfl
  | cons h hs ih => exact ih _

theorem historyPhase_run (hs : List HistoricalRecord) : (historyPhase hs).run RebuildAct.exec s =
    (.ok (), { s with recordVersions := s.recordVersions.insertAll (hs.map HistoricalRecord.row) }) := by
  cases hs with
  | nil => rfl
  | cons h hs => exact congrArg (Prod.mk (Except.ok ())) (putRecordVersionsBulk_eq s _)

theorem chainPhase_run (hs : List HistoricalRecord) : (chainPhase hs).run RebuildAct.exec s =
    match ((hs.map HistoricalRecord.chainEntry).insertionSort Store.batchLe).foldlM Store.appendChainEntry
      s.versionChains with
    | .ok chains => (.ok (), { s with versionChains := chains })
    | .error x => (.error (.error x), s) := by
  cases hs with
  | nil => rfl
  | cons h hs =>
    have hbulk := Store.appendChainEntriesBulk.eq_def s ((h :: hs).map HistoricalRecord.chainEntry)
    have hrun : (chainPhase (h :: hs)).run RebuildAct.exec s =
        Prog.run RebuildAct.exec (match (s.appendChainEntriesBulk ((h :: hs).map HistoricalRecord.chainEntry)).1 with
          | .ok _ => pure ()
          | .error x => Prog.fail (.error x))
          (s.appendChainEntriesBulk ((h :: hs).map HistoricalRecord.chainEntry)).2 := rfl
    rw [hrun, hbulk]
    cases (((h :: hs).map HistoricalRecord.chainEntry).insertionSort Store.batchLe).foldlM Store.appendChainEntry
      s.versionChains <;> rfl

end Phases

theorem persist_run (order : List (RecordKey × PerKey) → List (RecordKey × PerKey)) (scanned : Nat)
    (chunks : List Chunk) (s : Store) :
    (persist order scanned chunks).run RebuildAct.exec s =
      match (chainBatch chunks).foldlM Store.appendChainEntry s.versionChains with
      | .ok chains => (.ok (reportOf scanned chunks), filled order chunks chains s)
      | .error x => (.error (.error x), overwritten order chunks s) := by
  have hchain : (chainPhase ((found chunks).insertionSort historyLe)).run RebuildAct.exec (overwritten order chunks s) =
      match (chainBatch chunks).foldlM Store.appendChainEntry s.versionChains with
      | .ok chains => (.ok (), { overwritten order chunks s with versionChains := chains })
      | .error x => (.error (.error x), overwritten order chunks s) := chainPhase_run _ _
  rw [persist_eq, Prog.run_bind_ok _ (chunkPhase_run _ _), Prog.run_bind_ok _ (latestPhase_run _ _),
    Prog.run_bind_ok _ (versionsPhase_run _ _), Prog.run_bind_ok _ (historyPhase_run _ _)]
  cases hbatch : (chainBatch chunks).foldlM Store.appendChainEntry s.versionChains with
  | error x =>
    rw [hbatch] at hchain
    exact Prog.run_bind_error _ hchain
  | ok chains =>
    rw [hbatch] at hchain
    exact Prog.run_bind_ok _ hchain

/-! ## The batch of the chains -/

/-- The key of the chain that a record goes to. -/
def HistoricalRecord.chainKey (h : HistoricalRecord) : String := recordKey h.key.1 h.key.2.1 h.key.2.2

/-- Entries found for one chain at one version are of the same write: one transaction, one object, and both deleted or
both not. -/
def Unambiguous (chunks : List Chunk) : Prop :=
  ∀ h ∈ found chunks, ∀ h' ∈ found chunks, h.chainKey = h'.chainKey → h.entry.commitVersion = h'.entry.commitVersion →
    h.entry.txnId = h'.entry.txnId ∧ h.chunkS3Key = h'.chunkS3Key ∧ h.entry.deleted = h'.entry.deleted

theorem mem_chainBatch {item : String × VersionEntry × Nat} :
    item ∈ chainBatch chunks ↔ ∃ h ∈ found chunks, h.chainEntry = item := by
  simp [chainBatch]

theorem chainBatch_snapshot (item : String × VersionEntry × Nat) (hitem : item ∈ chainBatch chunks) :
    item.2.1.commitVersion ≤ item.2.2 := by
  obtain ⟨h, -, rfl⟩ := mem_chainBatch.1 hitem
  have hlt := h.entry.commitVersion.toNat_lt
  simp only [HistoricalRecord.chainEntry, versionEntryFromEntry, noConflict]
  omega

theorem chainBatch_ok_iff :
    (∃ chains, (chainBatch chunks).foldlM Store.appendChainEntry ∅ = .ok chains) ↔ Unambiguous chunks := by
  rw [foldlM_ok_iff chainBatch_snapshot]
  constructor
  · rintro ⟨-, hpairs⟩ h hh h' hh' hkey hversion
    let Same (a b : String × VersionEntry × Nat) : Prop :=
      a.1 = b.1 → a.2.1.commitVersion = b.2.1.commitVersion → a.2.1.Repeats b.2.1
    have hsymm : Std.Symm Same := ⟨fun a b hab hkey hversion => by
      obtain ⟨h₁, h₂, h₃, h₄⟩ := hab hkey.symm hversion.symm
      exact ⟨h₁.symm, h₂.symm, h₃.symm, h₄.symm⟩⟩
    have hsame : (chainBatch chunks).Pairwise Same :=
      hpairs.imp fun {a b} hab hkey hversion => (hab hkey).resolve_left hversion.not_lt
    exact (hsame.forall_of_forall (fun a _ _ _ => ⟨rfl, rfl, rfl, rfl⟩) (mem_chainBatch.2 ⟨h, hh, rfl⟩)
      (mem_chainBatch.2 ⟨h', hh', rfl⟩) hkey (congrArg UInt64.toNat hversion)).2
  · intro hone
    refine ⟨fun item _ last hlast => by simp [chainAt, VersionChain.new] at hlast, ?_⟩
    refine (List.pairwise_insertionSort Store.batchLe _).imp_of_mem fun {a b} ha hb hle hkey => ?_
    obtain ⟨h, hh, rfl⟩ := mem_chainBatch.1 ha
    obtain ⟨h', hh', rfl⟩ := mem_chainBatch.1 hb
    rcases (commitVersion_le_of_batchLe hle hkey).lt_or_eq with hlt | heq
    · exact .inl hlt
    · exact .inr ⟨heq, hone h hh h' hh' hkey (UInt64.toNat_inj.1 heq)⟩

/-! ## What a rebuild finds -/

def entriesOf (chunks : List Chunk) : List ChunkEntry := chunks.flatMap (·.entries)

def recordOf (e : ChunkEntry) : RecordKey := (e.space, e.table, e.recordId)

theorem mem_entriesOf : e ∈ entriesOf chunks ↔ ∃ ch ∈ chunks, e ∈ ch.entries := by
  simp [entriesOf]

theorem mem_found :
    h ∈ found chunks ↔ ∃ ch ∈ chunks, ∃ e ∈ ch.entries,
      h = ⟨recordOf e, e, ch.lo.key, ch.header.chunkId, ch.lo.etag⟩ := by
  simp [found, Chunk.historical, recordOf, eq_comm]

theorem entry_mem_of_mem_found (hh : h ∈ found chunks) : h.entry ∈ entriesOf chunks ∧ h.key = recordOf h.entry := by
  obtain ⟨ch, hch, e, he, rfl⟩ := mem_found.1 hh
  exact ⟨mem_entriesOf.2 ⟨ch, hch, he⟩, rfl⟩

theorem exists_mem_found (he : e ∈ entriesOf chunks) : ∃ h ∈ found chunks, h.entry = e := by
  obtain ⟨ch, hch, he⟩ := mem_entriesOf.1 he
  exact ⟨_, mem_found.2 ⟨ch, hch, e, he, rfl⟩, rfl⟩

theorem map_entry_found (chunks : List Chunk) : (found chunks).map (·.entry) = entriesOf chunks := by
  simp [found, entriesOf, Chunk.historical, List.map_flatMap, Function.comp_def]

/-- The rows of a table of newest entries: each stands for an entry that no other entry of its record exceeds. -/
structure NewestOf (hs : List HistoricalRecord) (per : Table RecordKey PerKey) : Prop where
  row : ∀ k p, per[k]? = some p → ∃ h ∈ hs, h.key = k ∧ p = h.perKey ∧
    ∀ h' ∈ hs, h'.key = k → h'.entry.commitVersion.toNat ≤ h.entry.commitVersion.toNat
  covered : ∀ h ∈ hs, ∃ p, per[h.key]? = some p

namespace NewestOf

variable {hs : List HistoricalRecord} {per : Table RecordKey PerKey} {h : HistoricalRecord}

theorem insert (hper : NewestOf hs per)
    (hmax : ∀ h' ∈ hs, h'.key = h.key → h'.entry.commitVersion.toNat ≤ h.entry.commitVersion.toNat) :
    NewestOf (hs ++ [h]) (per.insert h.key h.perKey) := by
  refine ⟨fun k p hp => ?_, fun h' hh' => ?_⟩
  · rw [Table.get_insert] at hp
    split at hp
    case isTrue hk =>
      cases hp
      refine ⟨h, by simp, hk, rfl, fun h' hh' hkey => ?_⟩
      rcases List.mem_append.1 hh' with hh' | hh'
      · exact hmax h' hh' (hkey.trans hk.symm)
      · rw [List.mem_singleton.1 hh']
    case isFalse hk =>
      obtain ⟨h₀, hh₀, hkey, rfl, hmax₀⟩ := hper.row k p hp
      refine ⟨h₀, by simp [hh₀], hkey, rfl, fun h' hh' hkey' => ?_⟩
      rcases List.mem_append.1 hh' with hh' | hh'
      · exact hmax₀ h' hh' hkey'
      · rw [List.mem_singleton.1 hh'] at hkey'
        exact absurd hkey' hk
  · rw [Table.get_insert]
    split
    · exact ⟨_, rfl⟩
    case isFalse hk =>
      rcases List.mem_append.1 hh' with hh' | hh'
      · exact hper.covered h' hh'
      · rw [List.mem_singleton.1 hh'] at hk
        exact absurd rfl hk

theorem keep (hper : NewestOf hs per) {cur : PerKey} (hcur : per[h.key]? = some cur)
    (hle : h.entry.commitVersion.toNat ≤ cur.commitVersion) : NewestOf (hs ++ [h]) per := by
  refine ⟨fun k p hp => ?_, fun h' hh' => ?_⟩
  · obtain ⟨h₀, hh₀, hkey, rfl, hmax₀⟩ := hper.row k p hp
    refine ⟨h₀, by simp [hh₀], hkey, rfl, fun h' hh' hkey' => ?_⟩
    rcases List.mem_append.1 hh' with hh' | hh'
    · exact hmax₀ h' hh' hkey'
    · rw [List.mem_singleton.1 hh'] at hkey' ⊢
      rw [hkey', hp] at hcur
      cases hcur
      exact hle
  · rcases List.mem_append.1 hh' with hh' | hh'
    · exact hper.covered h' hh'
    · rw [List.mem_singleton.1 hh']
      exact ⟨cur, hcur⟩

theorem step (hper : NewestOf hs per) (h : HistoricalRecord) : NewestOf (hs ++ [h]) (notePerKey per h) := by
  unfold notePerKey
  cases hcur : per[h.key]? with
  | none =>
    refine hper.insert fun h' hh' hkey => ?_
    obtain ⟨p, hp⟩ := hper.covered h' hh'
    rw [hkey, hcur] at hp
    cases hp
  | some cur =>
    simp only
    split
    case isTrue hlt =>
      refine hper.insert fun h' hh' hkey => ?_
      obtain ⟨h₀, -, -, rfl, hmax⟩ := hper.row _ _ hcur
      exact (hmax h' hh' hkey).trans hlt.le
    case isFalse hge => exact hper.keep hcur (not_lt.1 hge)

theorem fold (hs : List HistoricalRecord) : NewestOf hs (hs.foldl notePerKey ∅) := by
  induction hs using List.reverseRecOn with
  | nil => exact ⟨fun k p hp => by simp at hp, by simp⟩
  | append_singleton hs h ih =>
    rw [List.foldl_append]
    exact ih.step h

end NewestOf

theorem foldl_max_spec {α : Type} (f : α → Nat) (l : List α) (v : Nat) :
    v ≤ l.foldl (fun v a => max v (f a)) v ∧ (∀ a ∈ l, f a ≤ l.foldl (fun v a => max v (f a)) v) ∧
      (l.foldl (fun v a => max v (f a)) v = v ∨ ∃ a ∈ l, f a = l.foldl (fun v a => max v (f a)) v) := by
  induction l generalizing v with
  | nil => exact ⟨le_rfl, by simp, .inl rfl⟩
  | cons a l ih =>
    obtain ⟨hv, hle, hattained⟩ := ih (max v (f a))
    rw [List.foldl_cons]
    refine ⟨(le_max_left _ _).trans hv, fun b hb => ?_, ?_⟩
    · rcases List.mem_cons.1 hb with rfl | hb
      · exact (le_max_right _ _).trans hv
      · exact hle b hb
    · rcases hattained with heq | ⟨b, hb, heq⟩
      · rw [heq]
        rcases max_choice v (f a) with hmax | hmax
        · exact .inl hmax
        · exact .inr ⟨a, by simp, hmax.symm⟩
      · exact .inr ⟨b, by simp [hb], heq⟩

theorem le_topVersion (he : e ∈ entriesOf chunks) : e.commitVersion.toNat ≤ topVersion chunks := by
  obtain ⟨h, hh, rfl⟩ := exists_mem_found he
  exact (foldl_max_spec (fun h : HistoricalRecord => h.entry.commitVersion.toNat) (found chunks) 0).2.1 h hh

theorem topVersion_attained (chunks : List Chunk) :
    topVersion chunks = 0 ∨ ∃ e ∈ entriesOf chunks, e.commitVersion.toNat = topVersion chunks := by
  refine (foldl_max_spec (fun h : HistoricalRecord => h.entry.commitVersion.toNat) (found chunks) 0).2.2.imp_right ?_
  intro ⟨h, hh, heq⟩
  exact ⟨h.entry, (entry_mem_of_mem_found hh).1, heq⟩

/-! ## Buckets -/

/-- The objects of a listing that are taken for chunks. -/
def isChunk (lo : ListedObject) : Bool := ".xtc".toList.isSuffixOf lo.key.toList

/-- The chunks that the objects of a bucket decode to. -/
def Decodes (c : Codecs) (backend : Backend) (listed : List ListedObject) (chunks : List Chunk) : Prop :=
  List.Forall₂ (fun lo ch => scanObject c backend lo = .ok (some ch)) (listed.filter isChunk) chunks

/-- Chunks that agree with each other: their ids differ, and no version of a record is in them twice. -/
structure Coherent (chunks : List Chunk) : Prop where
  ids : (chunks.map (·.header.chunkId)).Nodup
  plain : ∀ e ∈ entriesOf chunks, '/' ∉ e.space.toList ∧ '/' ∉ e.table.toList
  once : ((entriesOf chunks).map fun e => (e.space, e.table, e.recordId, e.commitVersion)).Nodup

/-- A bucket whose chunks decode and agree with each other. -/
structure Bucket (c : Codecs) (backend : Backend) (listed : List ListedObject) (chunks : List Chunk) : Prop
    extends Coherent chunks where
  decodes : Decodes c backend listed chunks
  bounded : ∀ e ∈ entriesOf chunks, e.commitVersion.toNat < 2 ^ 64 - 1

theorem Decodes.scan (h : Decodes c backend listed chunks) : scanObjects c backend listed = .ok chunks := by
  unfold Decodes at h
  induction listed generalizing chunks with
  | nil =>
    cases h
    rfl
  | cons lo listed ih =>
    rw [scanObjects]
    by_cases hlo : isChunk lo = true
    · rw [List.filter_cons_of_pos hlo] at h
      obtain ⟨ch, rest, hch, hrest, rfl⟩ := List.forall₂_cons_left_iff.1 h
      rw [hch, ih hrest]
      rfl
    · rw [List.filter_cons_of_neg hlo] at h
      have hskip : scanObject c backend lo = .ok none := if_neg hlo
      rw [hskip, ih h]
      rfl

theorem scanObject_eq_some {lo : ListedObject} {ch : Chunk} (h : scanObject c backend lo = .ok (some ch)) :
    ch.lo = lo ∧ ∃ bytes body,
      backend.objects[lo.key]? = some bytes ∧ decompressBody c bytes = .ok body ∧
      ∀ n, decodeBodyEntries c body n = .ok ch.entries := by
  unfold scanObject at h
  split at h
  case isFalse => cases h
  split at h
  · cases h
  case h_2 bytes hbytes =>
    cases hheader : ChunkHeader.decode c bytes with
    | error x => cases x <;> simp [hheader, orSkip, bind, Except.bind] at h
    | ok r =>
      cases hbody : decompressBody c bytes with
      | error x => cases x <;> simp [hheader, hbody, orSkip, bind, Except.bind] at h
      | ok body =>
        cases hentries : decodeBodyEntries c body r.1.recordCount with
        | error x => cases x <;> simp [hheader, hbody, hentries, orSkip, bind, Except.bind] at h
        | ok entries =>
          simp only [hheader, hbody, hentries, orSkip, bind, Except.bind, pure, Except.pure] at h
          cases Except.ok.inj h
          exact ⟨rfl, bytes, body, hbytes, hbody, fun _ => hentries⟩

theorem Decodes.of_mem (h : Decodes c backend listed chunks) {ch : Chunk} (hch : ch ∈ chunks) :
    ∃ lo ∈ listed, scanObject c backend lo = .ok (some ch) := by
  unfold Decodes at h
  generalize hobjects : listed.filter isChunk = objects at h
  have hsub : ∀ lo ∈ objects, lo ∈ listed := fun lo hlo => (List.mem_filter.1 (hobjects ▸ hlo)).1
  clear hobjects
  induction h with
  | nil => cases hch
  | @cons lo ch' objects chunks hscan _ ih =>
    rcases List.mem_cons.1 hch with rfl | hch
    · exact ⟨lo, hsub lo (by simp), hscan⟩
    · exact ih hch fun lo hlo => hsub lo (by simp [hlo])

section Bucket

variable {c : Codecs} {backend : Backend} {listed : List ListedObject} {chunks : List Chunk}
  {order : List (RecordKey × PerKey) → List (RecordKey × PerKey)} {s : Store}

theorem Coherent.entry_eq (hb : Coherent chunks) {e' : ChunkEntry} (he : e ∈ entriesOf chunks)
    (he' : e' ∈ entriesOf chunks) (hkey : recordOf e = recordOf e')
    (hversion : e.commitVersion.toNat = e'.commitVersion.toNat) : e = e' := by
  refine List.inj_on_of_nodup_map hb.once he he' ?_
  simp only [recordOf, Prod.mk.injEq] at hkey
  simp [hkey, UInt64.toNat_inj.1 hversion]

theorem Coherent.nodup_map (hb : Coherent chunks) {β : Type} {g : ChunkEntry → β}
    (hg : ∀ e ∈ entriesOf chunks, ∀ e' ∈ entriesOf chunks, g e = g e' →
      recordOf e = recordOf e' ∧ e.commitVersion.toNat = e'.commitVersion.toNat) :
    ((entriesOf chunks).map g).Nodup := by
  refine List.pairwise_map.2 ((List.pairwise_map.1 hb.once).imp_of_mem fun {e e'} he he' hne heq => ?_)
  obtain ⟨hkey, hversion⟩ := hg e he e' he' heq
  rw [hb.entry_eq he he' hkey hversion] at hne
  exact hne rfl

theorem map_found {β : Type} {f : HistoricalRecord → β} (g : ChunkEntry → β)
    (hfg : ∀ h ∈ found chunks, f h = g h.entry) : (found chunks).map f = (entriesOf chunks).map g := by
  rw [← map_entry_found, List.map_map]
  exact List.map_congr_left hfg

theorem Coherent.found_eq (hc : Coherent chunks) {h' : HistoricalRecord} (hh : h ∈ found chunks)
    (hh' : h' ∈ found chunks) (hkey : h.key = h'.key)
    (hversion : h.entry.commitVersion.toNat = h'.entry.commitVersion.toNat) : h = h' := by
  have hnodup : ((found chunks).map fun h => (h.key, h.entry.commitVersion.toNat)).Nodup := by
    rw [map_found fun e => (recordOf e, e.commitVersion.toNat)]
    · exact hc.nodup_map fun e he e' he' heq => Prod.mk.inj heq
    · intro h hh
      rw [(entry_mem_of_mem_found hh).2]
  exact List.inj_on_of_nodup_map hnodup hh hh' (Prod.ext hkey hversion)

theorem Coherent.key_inj (hc : Coherent chunks) {h' : HistoricalRecord} (hh : h ∈ found chunks)
    (hh' : h' ∈ found chunks) (heq : h.chainKey = h'.chainKey) : h.key = h'.key := by
  obtain ⟨hmem, hkey⟩ := entry_mem_of_mem_found hh
  obtain ⟨hmem', hkey'⟩ := entry_mem_of_mem_found hh'
  obtain ⟨hspace, htable⟩ := hc.plain _ hmem
  obtain ⟨hspace', htable'⟩ := hc.plain _ hmem'
  rw [HistoricalRecord.chainKey, HistoricalRecord.chainKey, hkey, hkey'] at heq
  rw [hkey, hkey']
  obtain ⟨h₁, h₂, h₃⟩ := recordKey_inj hspace hspace' htable htable' heq
  exact Prod.ext h₁ (Prod.ext h₂ h₃)

theorem Coherent.unambiguous (hc : Coherent chunks) : Unambiguous chunks := by
  intro h hh h' hh' hkey hversion
  rw [hc.found_eq hh hh' (hc.key_inj hh hh' hkey) (congrArg UInt64.toNat hversion)]
  exact ⟨rfl, rfl, rfl⟩

theorem Coherent.chainBatch_ok (hc : Coherent chunks) :
    ∃ chains, (chainBatch chunks).foldlM Store.appendChainEntry ∅ = .ok chains := chainBatch_ok_iff.2 hc.unambiguous

theorem Coherent.rebuild_ok (hc : Coherent chunks) (hscan : scanObjects c backend listed = .ok chunks)
    (order : List (RecordKey × PerKey) → List (RecordKey × PerKey)) : ∃ chains,
      (chainBatch chunks).foldlM Store.appendChainEntry ∅ = .ok chains ∧
      (rebuild c backend (.ok listed) order).run RebuildAct.exec {} =
        (.ok (reportOf listed.length chunks), filled order chunks chains {}) := by
  obtain ⟨chains, hchains⟩ := hc.chainBatch_ok
  refine ⟨chains, hchains, ?_⟩
  have hrun := persist_run order listed.length chunks {}
  rw [show ({} : Store).versionChains = ∅ from rfl, hchains] at hrun
  rw [rebuild, hscan]
  exact hrun

theorem Bucket.rebuild_ok (hb : Bucket c backend listed chunks)
    (order : List (RecordKey × PerKey) → List (RecordKey × PerKey)) : ∃ chains,
      (chainBatch chunks).foldlM Store.appendChainEntry ∅ = .ok chains ∧
      (rebuild c backend (.ok listed) order).run RebuildAct.exec {} =
        (.ok (reportOf listed.length chunks), filled order chunks chains {}) :=
  hb.toCoherent.rebuild_ok hb.decodes.scan order

theorem Coherent.historyRows_nodup (hb : Coherent chunks) : ((historyRows chunks).map (·.1)).Nodup := by
  rw [historyRows, List.map_map]
  refine ((List.perm_insertionSort historyLe (found chunks)).map _).nodup_iff.2 ?_
  rw [map_found (fun e => (recordOf e, e.commitVersion.toNat))]
  · exact hb.nodup_map fun e he e' he' heq => Prod.mk.inj heq
  · intro h hh
    rw [Function.comp_apply, HistoricalRecord.row, (entry_mem_of_mem_found hh).2]

theorem mem_historyRows {row : (RecordKey × Nat) × StoredRecordVersion} :
    row ∈ historyRows chunks ↔ ∃ h ∈ found chunks, h.row = row := by
  simp [historyRows]

/-! ### The tables -/

theorem Coherent.recordVersions_eq_some (hb : Coherent chunks) {rk : RecordKey} {v : Nat} {row : StoredRecordVersion} :
    (filled order chunks chains {}).recordVersions[(rk, v)]? = some row ↔ ∃ h ∈ found chunks, h.row = ((rk, v), row) := by
  rw [← mem_historyRows]
  refine ⟨fun hrow => ?_, fun hmem => Table.get_insertAll_of_mem hb.historyRows_nodup hmem⟩
  rcases Table.mem_of_get_insertAll hrow with hmem | hnone
  · exact hmem
  · simp at hnone

theorem Coherent.entry_of_row (hb : Coherent chunks) {rk : RecordKey} {v : Nat} {row : StoredRecordVersion}
    (hrow : (filled order chunks chains {}).recordVersions[(rk, v)]? = some row) :
    ∃ e ∈ entriesOf chunks, recordOf e = rk ∧ e.commitVersion.toNat = v := by
  obtain ⟨h, hh, heq⟩ := hb.recordVersions_eq_some.1 hrow
  obtain ⟨hkey, hversion⟩ := Prod.mk.inj (Prod.mk.inj heq).1
  obtain ⟨hmem, hrecord⟩ := entry_mem_of_mem_found hh
  exact ⟨h.entry, hmem, hrecord.symm.trans hkey, hversion⟩

theorem Coherent.keyed (hb : Coherent chunks) : (filled order chunks chains {}).Keyed := by
  intro rk v row hrow
  obtain ⟨h, -, heq⟩ := hb.recordVersions_eq_some.1 hrow
  obtain ⟨hkey, rfl⟩ := Prod.mk.inj heq
  exact (Prod.mk.inj hkey).2

theorem Coherent.getChunkIndex (hb : Coherent chunks) {ch : Chunk} (hch : ch ∈ chunks) :
    (filled order chunks chains {}).getChunkIndex ch.header.chunkId = some ch.indexEntry := by
  refine Table.get_insertAll_of_mem ?_ (List.mem_map.2 ⟨ch, hch, rfl⟩)
  rw [List.map_map]
  exact hb.ids

theorem getRecordIndex_filled (horder : ∀ l, (order l).Perm l) {rk : RecordKey} {idx : RecordIndexEntry}
    (hidx : (filled order chunks chains {}).getRecordIndex rk = some idx) :
    ∃ h ∈ found chunks, h.key = rk ∧ idx = recordIndexFromEntry h.entry h.chunkId ∧
      ∀ h' ∈ found chunks, h'.key = rk → h'.entry.commitVersion.toNat ≤ h.entry.commitVersion.toNat := by
  obtain ⟨row, hrow, rfl⟩ := Option.map_eq_some_iff.1 hidx
  rcases Table.mem_of_get_insertAll hrow with hmem | hnone
  · obtain ⟨⟨k, p⟩, hp, heq⟩ := List.mem_map.1 hmem
    obtain ⟨rfl, rfl⟩ := Prod.mk.inj heq
    obtain ⟨h, hh, hkey, rfl, hmax⟩ := (NewestOf.fold (found chunks)).row k p
      (Table.mem_toList.1 ((horder _).mem_iff.1 hp))
    exact ⟨h, hh, hkey, rfl, hmax⟩
  · simp at hnone

end Bucket

/-! ## Where the rows come from -/

/-- Every row of the store stands for one of these records. -/
structure StandsFor (P : HistoricalRecord → Prop) (s : Store) : Prop where
  history : ∀ k row, s.recordVersions[k]? = some row → ∃ h, P h ∧ h.row = (k, row)
  latest : ∀ rk row, s.recordIndex[rk]? = some row → ∃ h, P h ∧ latestRow (h.key, h.perKey) = (rk, row)
  versions : ∀ k row, s.versions[k]? = some row → ∃ h, P h ∧ versionUpdate (h.key, h.perKey) = (k, row)
  chains : ∀ k, ∀ e ∈ chainAt s.versionChains k, ∃ h, P h ∧ h.chainEntry = (k, e, noConflict)
  counter : s.globalVersion = 0 ∨ ∃ h, P h ∧ h.entry.commitVersion.toNat = s.globalVersion

theorem StandsFor.empty (P : HistoricalRecord → Prop) : StandsFor P {} :=
  ⟨fun k row h => by simp at h, fun rk row h => by simp at h, fun k row h => by simp at h,
    fun k e he => by simp [chainAt, VersionChain.new] at he, .inl rfl⟩

theorem StandsFor.mono {P Q : HistoricalRecord → Prop} {s : Store} (hs : StandsFor P s) (hPQ : ∀ h, P h → Q h) :
    StandsFor Q s where
  history k row hrow := (hs.history k row hrow).imp fun _ h => ⟨hPQ _ h.1, h.2⟩
  latest k row hrow := (hs.latest k row hrow).imp fun _ h => ⟨hPQ _ h.1, h.2⟩
  versions k row hrow := (hs.versions k row hrow).imp fun _ h => ⟨hPQ _ h.1, h.2⟩
  chains k e he := (hs.chains k e he).imp fun _ h => ⟨hPQ _ h.1, h.2⟩
  counter := hs.counter.imp_right fun hattained => hattained.imp fun _ h => ⟨hPQ _ h.1, h.2⟩

section Origin

variable {order : List (RecordKey × PerKey) → List (RecordKey × PerKey)} {chunks : List Chunk}

theorem newest_mem_found (horder : ∀ l, (order l).Perm l) {x : RecordKey × PerKey}
    (hx : x ∈ order (newest chunks).toList) : ∃ h ∈ found chunks, x = (h.key, h.perKey) := by
  obtain ⟨k, p⟩ := x
  obtain ⟨h, hh, rfl, rfl, -⟩ := (NewestOf.fold (found chunks)).row k p (Table.mem_toList.1 ((horder _).mem_iff.1 hx))
  exact ⟨h, hh, rfl⟩

theorem StandsFor.overwritten (horder : ∀ l, (order l).Perm l) :
    StandsFor (· ∈ found chunks) (overwritten order chunks {}) where
  history k row hrow := by
    rcases Table.mem_of_get_insertAll hrow with hmem | hnone
    · exact mem_historyRows.1 hmem
    · simp at hnone
  latest rk row hrow := by
    rcases Table.mem_of_get_insertAll hrow with hmem | hnone
    · obtain ⟨x, hx, heq⟩ := List.mem_map.1 hmem
      obtain ⟨h, hh, rfl⟩ := newest_mem_found horder hx
      exact ⟨h, hh, heq⟩
    · simp at hnone
  versions k row hrow := by
    rcases Table.mem_of_get_insertAll hrow with hmem | hnone
    · obtain ⟨x, hx, heq⟩ := List.mem_map.1 hmem
      obtain ⟨h, hh, rfl⟩ := newest_mem_found horder hx
      exact ⟨h, hh, heq⟩
    · simp at hnone
  chains := (StandsFor.empty _).chains
  counter := .inl rfl

theorem StandsFor.filled (horder : ∀ l, (order l).Perm l)
    (hchains : (chainBatch chunks).foldlM Store.appendChainEntry ∅ = .ok chains) :
    StandsFor (· ∈ found chunks) (filled order chunks chains {}) where
  history := (StandsFor.overwritten horder).history
  latest := (StandsFor.overwritten horder).latest
  versions := (StandsFor.overwritten horder).versions
  chains k e he := by
    have hempty : WellFormedChains ∅ := fun k c hc => by simp at hc
    obtain ⟨new, hnew, hext⟩ := (foldlM_extends hempty hchains).2 k
    have hnil : chainAt ∅ k = [] := by simp [chainAt, VersionChain.new]
    rw [hnil, List.nil_append] at hnew
    have he' : e ∈ new := hnew ▸ he
    obtain ⟨snap, hsnap⟩ := hext.taken e he'
    obtain ⟨h, hh, heq⟩ := List.mem_map.1 ((List.mem_insertionSort _).1 hsnap)
    refine ⟨h, (List.mem_insertionSort _).1 hh, ?_⟩
    obtain ⟨hk, hrest⟩ := Prod.mk.inj heq
    obtain ⟨he, -⟩ := Prod.mk.inj hrest
    rw [HistoricalRecord.chainEntry, hk, he]
  counter := by
    rcases topVersion_attained chunks with hzero | ⟨e, he, htop⟩
    · exact .inl hzero
    · obtain ⟨h, hh, rfl⟩ := exists_mem_found he
      exact .inr ⟨h, hh, htop⟩

theorem scan_mem (hscan : scanObjects c backend listed = .ok chunks) {ch : Chunk} (hch : ch ∈ chunks) :
    ∃ lo ∈ listed, scanObject c backend lo = .ok (some ch) := by
  induction listed generalizing chunks with
  | nil =>
    cases hscan
    cases hch
  | cons lo listed ih =>
    rw [scanObjects] at hscan
    cases hlo : scanObject c backend lo with
    | error x =>
      rw [hlo] at hscan
      cases hscan
    | ok first =>
      cases hrest : scanObjects c backend listed with
      | error x =>
        rw [hlo, hrest] at hscan
        cases hscan
      | ok rest =>
        rw [hlo, hrest] at hscan
        cases hscan
        rcases List.mem_append.1 hch with hch | hch
        · exact ⟨lo, by simp, hlo.trans (congrArg _ (Option.mem_toList.1 hch))⟩
        · obtain ⟨lo', hlo', hscan'⟩ := ih hrest hch
          exact ⟨lo', by simp [hlo'], hscan'⟩

theorem rebuild_standsFor (horder : ∀ l, (order l).Perm l) :
    StandsFor (fun h => ∃ lo ∈ listed, ∃ ch, scanObject c backend lo = .ok (some ch) ∧ h ∈ ch.historical)
      ((rebuild c backend (.ok listed) order).run RebuildAct.exec {}).2 := by
  rw [rebuild]
  cases hscan : scanObjects c backend listed with
  | error x => exact StandsFor.empty _
  | ok chunks =>
    have hlisted : ∀ h, h ∈ found chunks →
        ∃ lo ∈ listed, ∃ ch, scanObject c backend lo = .ok (some ch) ∧ h ∈ ch.historical := by
      intro h hh
      obtain ⟨ch, hch, hmem⟩ := List.mem_flatMap.1 hh
      obtain ⟨lo, hlo, hobject⟩ := scan_mem hscan hch
      exact ⟨lo, hlo, ch, hobject, hmem⟩
    have hrun := persist_run order listed.length chunks {}
    rw [show ({} : Store).versionChains = ∅ from rfl] at hrun
    refine StandsFor.mono ?_ hlisted
    simp only
    cases hchains : (chainBatch chunks).foldlM Store.appendChainEntry ∅ with
    | error x =>
      rw [hchains] at hrun
      rw [hrun]
      exact StandsFor.overwritten horder
    | ok chains =>
      rw [hchains] at hrun
      rw [hrun]
      exact StandsFor.filled horder hchains

end Origin

end Rebuild

end Xtable
