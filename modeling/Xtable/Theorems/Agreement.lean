import Xtable.Theorems.Catalog

/-! Four tables know the versions of a document: the chain under its object key, `TBL_VERSIONS`, the historical
    record rows, and the latest row. Commits append to all of them and collections prune alike, so they agree as
    lists. -/

namespace Xtable

open Coordinator

variable {env : Env} {w w' : World} {t key : String} {rk : RecordKey} {row : TxnStateRecord} {r : StoredRecordVersion}

/-! ## Historical rows -/

namespace Store

variable {s s' : Store} {v : Nat}

theorem recordRows_eq_of_mem {l : List ((RecordKey × Nat) × StoredRecordVersion)} (hasc : l.Pairwise fun a b => a.1.2 < b.1.2)
    (hmem : ∀ x, x ∈ l ↔ x.1.1 = rk ∧ s.recordVersions[x.1]? = some x.2) : s.recordRows rk = l := by
  have hirr : ∀ a b : (RecordKey × Nat) × StoredRecordVersion, a.1.2 < b.1.2 → a ≠ b := by
    rintro a b h rfl
    exact lt_irrefl _ h
  refine List.Perm.eq_of_pairwise ?_ (s.recordRows_ascending rk) hasc ?_
  · intro a b _ _ hab hba
    exact absurd hba (Nat.lt_asymm hab)
  · refine (List.perm_ext_iff_of_nodup ((s.recordRows_ascending rk).imp (hirr _ _)) (hasc.imp (hirr _ _))).2 fun x => ?_
    rw [hmem, recordRows, List.mem_filter, Table.mem_toList, decide_eq_true_eq, and_comm]

theorem mem_recordRows_iff {x : (RecordKey × Nat) × StoredRecordVersion} :
    x ∈ s.recordRows rk ↔ x.1.1 = rk ∧ s.recordVersions[x.1]? = some x.2 := by
  rw [recordRows, List.mem_filter, Table.mem_toList, decide_eq_true_eq, and_comm]

theorem recordRows_congr (h : ∀ u : Nat, s'.recordVersions[(rk, u)]? = s.recordVersions[(rk, u)]?) :
    s'.recordRows rk = s.recordRows rk := by
  refine recordRows_eq_of_mem (s.recordRows_ascending rk) fun x => ?_
  obtain ⟨⟨rk', u⟩, row⟩ := x
  rw [mem_recordRows_iff]
  refine and_congr_right fun hrk => ?_
  obtain rfl := hrk
  rw [h u]

theorem recordRows_append (habove : ∀ x ∈ s.recordRows rk, x.1.2 < v)
    (h : ∀ u : Nat, s'.recordVersions[(rk, u)]? = if u = v then some r else s.recordVersions[(rk, u)]?) :
    s'.recordRows rk = s.recordRows rk ++ [((rk, v), r)] := by
  refine recordRows_eq_of_mem ?_ fun x => ?_
  · refine List.pairwise_append.2 ⟨s.recordRows_ascending rk, by simp, fun a ha b hb => ?_⟩
    obtain rfl := List.mem_singleton.1 hb
    exact habove a ha
  · obtain ⟨⟨rk', u⟩, row⟩ := x
    rw [List.mem_append, mem_recordRows_iff, List.mem_singleton]
    by_cases hrk : rk' = rk
    · subst hrk
      have hfresh : s.recordVersions[(rk', v)]? = none := by
        cases hold : s.recordVersions[(rk', v)]? with
        | none => rfl
        | some old => exact absurd (habove ((rk', v), old) (mem_recordRows_iff.2 ⟨rfl, hold⟩)) (lt_irrefl v)
      by_cases hu : u = v
      · subst hu
        simp [h, hfresh, eq_comm]
      · simp [h, hu]
    · simp [hrk]

end Store

/-! ## The drafts of a publication -/

theorem find?_iterWriteSet (s : Store) (t k : String) :
    (s.iterWriteSet t).find? (fun x => x.1 = k) = (s.writeSet[(t, k)]?).map fun we => (k, we) := by
  cases hwe : s.writeSet[(t, k)]? with
  | none =>
    refine List.find?_eq_none.2 fun x hx => ?_
    obtain ⟨k', we⟩ := x
    have hget := mem_iterWriteSet.1 hx
    simp only [decide_eq_true_eq]
    rintro rfl
    rw [hwe] at hget
    cases hget
  | some we =>
    cases hfind : (s.iterWriteSet t).find? (fun x => x.1 = k) with
    | none => simpa using List.find?_eq_none.1 hfind _ (mem_iterWriteSet.2 hwe)
    | some x =>
      obtain ⟨k', we'⟩ := x
      obtain rfl : k' = k := by simpa using List.find?_some hfind
      have hget := mem_iterWriteSet.1 (List.mem_of_find?_eq_some hfind)
      rw [hwe] at hget
      cases hget
      rfl

theorem nodup_iterWriteSet (s : Store) (t : String) : ((s.iterWriteSet t).map (·.1)).Nodup := by
  have hkeys : s.writeSet.toList.Pairwise fun a b => a.1 ≠ b.1 := List.pairwise_map.1 Table.nodup_keys
  rw [Store.iterWriteSet, List.map_map, List.Nodup, List.pairwise_map]
  refine (hkeys.sublist List.filter_sublist).imp_of_mem fun {a b} ha hb hne heq => ?_
  have hat : a.1.1 = t := by simpa using (List.mem_filter.1 ha).2
  have hbt : b.1.1 = t := by simpa using (List.mem_filter.1 hb).2
  exact hne (Prod.ext (hat.trans hbt.symm) heq)

theorem Draft.isDeleted {d : Doc} (h : Draft w t row) (hd : (w.pendingOf t).docAt key = some d) :
    Coordinator.isDeleted (w.store.iterWriteSet t) key = d.deleted := by
  have hwrites := h.writes key
  rw [hd] at hwrites
  rw [Coordinator.isDeleted, find?_iterWriteSet, Option.map_map]
  simp only [Function.comp_def, hwrites]
  rfl

theorem Draft.docVersion {v : Nat} (h : Draft w t row) (ws : WriteSet) {d : Doc}
    (hd : d ∈ (w.pendingOf t).docs) : (d.entry (commitEvent t row ws v)).commitVersion = v := by
  have hkey : d.key ∈ row.writeKeys := by
    refine (h.keys d.key).2 fun hnone => ?_
    exact PendingTxn.docAt_eq_none.1 hnone d hd rfl
  have hmem : commitWrite (d.key, chainEntry t ws d.key v, row.snapshotVersion) ∈ (commitEvent t row ws v).writes :=
    List.mem_map_of_mem (mem_chainEntries.2 ⟨hkey, rfl⟩)
  simp only [Doc.entry, Engine.pickRecordVersion]
  cases hfind : (commitEvent t row ws v).writes.find? (fun x => x.key = d.key) with
  | none => simpa [commitWrite] using List.find?_eq_none.1 hfind _ hmem
  | some x =>
    obtain ⟨item, hitem, rfl⟩ := List.mem_map.1 (List.mem_of_find?_eq_some hfind)
    obtain ⟨-, heq⟩ := mem_chainEntries.1 hitem
    simp [commitWrite, heq]

/-! ## Agreement -/

def VersionEntry.stamp (e : VersionEntry) : Nat × Bool := (e.commitVersion, e.deleted)

def RecordIndexEntry.stamp (e : RecordIndexEntry) : Nat × Bool := (e.commitVersion, e.deleted)

def VersionRecord.stamp (r : VersionRecord) : Nat × Bool := (r.latestVersion, r.tombstone)

/-- The tables agree on the versions of a document. -/
structure Store.Agree (s : Store) (rk : RecordKey) (key : String) : Prop where
  keyed : ∀ (v : Nat) row, s.recordVersions[(rk, v)]? = some row → row.entry.commitVersion = v
  rows : (s.recordRows rk).map (fun x => (x.1.2, x.2.entry.deleted)) = (s.readChain key).entries.map VersionEntry.stamp
  latest : (s.recordIndex[rk]?).map (·.entry.stamp) = (s.readChain key).entries.getLast?.map VersionEntry.stamp
  version : (s.versions[key]?).map VersionRecord.stamp = (s.readChain key).entries.getLast?.map VersionEntry.stamp

namespace Store.Agree

variable {s s' : Store}

theorem versions_eq (h : s.Agree rk key) :
    (s.recordRows rk).map (·.1.2) = (s.readChain key).entries.map (·.commitVersion) := by
  have hfst := congrArg (List.map Prod.fst) h.rows
  simpa [List.map_map, Function.comp_def, VersionEntry.stamp] using hfst

theorem ascending (h : s.Agree rk key) :
    (s.readChain key).entries.Pairwise fun a b => a.commitVersion < b.commitVersion := by
  have hasc : ((s.recordRows rk).map (·.1.2)).Pairwise (· < ·) := List.pairwise_map.2 (s.recordRows_ascending rk)
  rw [h.versions_eq] at hasc
  exact List.pairwise_map.1 hasc

theorem congr (h : s.Agree rk key) (hrows : ∀ u : Nat, s'.recordVersions[(rk, u)]? = s.recordVersions[(rk, u)]?)
    (hchain : (s'.readChain key).entries = (s.readChain key).entries) (hindex : s'.recordIndex[rk]? = s.recordIndex[rk]?)
    (hversion : s'.versions[key]? = s.versions[key]?) : s'.Agree rk key := by
  refine ⟨fun v row hrow => h.keyed v row ((hrows v).symm.trans hrow), ?_, ?_, ?_⟩
  · rw [Store.recordRows_congr hrows, hchain]
    exact h.rows
  · rw [hindex, hchain]
    exact h.latest
  · rw [hversion, hchain]
    exact h.version

theorem of_catalog (h : s.Agree rk key) (heq : s'.catalog = s.catalog) : s'.Agree rk key :=
  h.congr (fun u => catalog_lookup (fun s => s.recordVersions[(rk, u)]?) (fun _ => rfl) heq)
    (catalog_lookup (fun s => (s.readChain key).entries) (fun _ => rfl) heq)
    (catalog_lookup (fun s => s.recordIndex[rk]?) (fun _ => rfl) heq)
    (catalog_lookup (fun s => s.versions[key]?) (fun _ => rfl) heq)

theorem append {r' : StoredRecord} {e : VersionEntry} {vr : VersionRecord} (h : s.Agree rk key)
    (habove : ∀ e' ∈ (s.readChain key).entries, e'.commitVersion < e.commitVersion)
    (hrows : ∀ u : Nat, s'.recordVersions[(rk, u)]? = if u = e.commitVersion then some r else s.recordVersions[(rk,
      u)]?)
    (hchain : (s'.readChain key).entries = (s.readChain key).entries ++ [e]) (hindex : s'.recordIndex[rk]? = some r')
    (hversion : s'.versions[key]? = some vr) (hr : r.entry.stamp = e.stamp) (hr' : r'.entry.stamp = e.stamp)
    (hvr : vr.stamp = e.stamp) : s'.Agree rk key := by
  obtain ⟨hcv, hdeleted⟩ := Prod.mk.inj hr
  refine ⟨fun v row hrow => ?_, ?_, ?_, ?_⟩
  · rw [hrows] at hrow
    split at hrow
    case isTrue hv =>
      cases hrow
      exact hcv.trans hv.symm
    case isFalse => exact h.keyed v row hrow
  · have hlt : ∀ x ∈ s.recordRows rk, x.1.2 < e.commitVersion := by
      intro x hx
      have hmem : x.1.2 ∈ (s.readChain key).entries.map (·.commitVersion) := h.versions_eq ▸ List.mem_map_of_mem hx
      obtain ⟨e', he', heq⟩ := List.mem_map.1 hmem
      exact heq ▸ habove e' he'
    rw [Store.recordRows_append hlt hrows, hchain, List.map_append, List.map_append, h.rows]
    simp [VersionEntry.stamp, hdeleted]
  · simp [hindex, hchain, hr']
  · simp [hversion, hchain, hvr]

theorem collected (h : s.Agree rk key) (requestedMin : Option (WithTop Nat)) :
    (s.gcChainsInner requestedMin).2.Agree rk key := by
  have hlast : ((s.gcChainsInner requestedMin).2.readChain key).entries.getLast? = (s.readChain key).entries.getLast? := by
    rw [Store.readChain_gc, VersionChain.pruneBelow_getLast?]
  refine ⟨fun v row hrow => ?_, ?_, ?_, ?_⟩
  · have hmem := Store.mem_recordRows.2 hrow
    rw [Store.recordRows_gc] at hmem
    exact h.keyed v row (Store.mem_recordRows.1 (List.mem_of_mem_drop hmem))
  · rw [Store.recordRows_gc, Store.readChain_gc, VersionChain.pruneBelow, VersionChain.keepFrom_eq, List.map_drop,
      List.map_drop, h.rows, Store.recordHistory_eq, h.versions_eq]
  · rw [hlast, ← h.latest]
    rfl
  · rw [hlast, ← h.version]
    rfl

end Store.Agree

def Store.Agrees (s : Store) : Prop := ∀ rk key, DocKey rk key → s.Agree rk key

section

variable (h : Publication env w t row w') (hdraft : Draft w t row)

include h hdraft

theorem Publication.latest_le (hagree : w.store.Agrees) {d : Doc}
    (hd : d ∈ (w.pendingOf t).docs) {cur : StoredRecord} (hcur : w.store.recordIndex[d.rk]? = some cur) :
    cur.entry.commitVersion ≤ w.nextVersion row := by
  have hmem : d.key ∈ row.writeKeys := (hdraft.keys d.key).2 fun hnone => PendingTxn.docAt_eq_none.1 hnone d hd rfl
  have hlatest := (hagree d.rk d.key (hdraft.keyed.docKey hd)).latest
  rw [hcur] at hlatest
  obtain ⟨e, he, hstamp⟩ := Option.map_eq_some_iff.1 hlatest.symm
  have hcv : e.commitVersion = cur.entry.commitVersion := congrArg Prod.fst hstamp
  have hsnap := Store.newerKey_none h.newest hmem he
  have hlt := h.lt_nextVersion (List.ne_nil_of_mem hmem)
  omega

theorem Publication.row_cases {u : Nat} (hr : w'.store.recordVersions[(rk, u)]? = some r) :
    w.store.recordVersions[(rk, u)]? = some r ∨ ∃ d ∈ (w.pendingOf t).docs, d.rk = rk ∧ u = w.nextVersion row ∧
      r = d.row env (commitEvent t row (w.store.iterWriteSet t) (w.nextVersion row)) := by
  rw [h.recordVersions_eq, Store.indexed_eq hdraft.keyed] at hr
  simp only [recordVersions_indexDocs] at hr
  rcases Table.mem_of_get_insertAll hr with hmem | hold
  · obtain ⟨d, hd, heq⟩ := List.mem_map.1 hmem
    obtain ⟨hkeys, rfl⟩ := Prod.mk.inj heq
    obtain ⟨rfl, rfl⟩ := Prod.mk.inj hkeys
    exact .inr ⟨d, hd, rfl, hdraft.docVersion _ hd, rfl⟩
  · exact .inl hold

theorem Publication.version_row {d : Doc} {key : String}
    (hd : (w.pendingOf t).docAt key = some d) : w'.store.recordVersions[(d.rk, w.nextVersion row)]? =
      some (d.row env (commitEvent t row (w.store.iterWriteSet t) (w.nextVersion row))) := by
  obtain ⟨hmem, rfl⟩ := PendingTxn.docAt_mem hd
  rw [h.recordVersions_eq, hdraft.keyed.recordVersions_indexed (fun d' hd' => hdraft.docVersion _ hd') (hdraft.keyed.docKey hmem), hd]
  simp [Option.filter]

theorem Publication.latest_cases (hagree : w.store.Agrees)
    {r : StoredRecord} (hr : w'.store.recordIndex[rk]? = some r) :
    w.store.recordIndex[rk]? = some r ∨ ∃ d ∈ (w.pendingOf t).docs, d.rk = rk ∧
      r = d.latest env (commitEvent t row (w.store.iterWriteSet t) (w.nextVersion row)) := by
  rw [h.recordIndex_eq, Store.indexed_eq hdraft.keyed] at hr
  simp only [recordIndex_indexDocs (fun d hd => hdraft.docVersion _ hd)
    fun d hd cur hcur => h.latest_le hdraft hagree hd hcur] at hr
  rcases Table.mem_of_get_insertAll hr with hmem | hold
  · obtain ⟨d, hd, heq⟩ := List.mem_map.1 hmem
    obtain ⟨rfl, rfl⟩ := Prod.mk.inj heq
    exact .inr ⟨d, hd, rfl, rfl⟩
  · exact .inl hold

end

theorem CatalogStep.row_cases (h : CatalogStep env w w') (hdrafts : Drafts w) {u : Nat}
    (hr : w'.store.recordVersions[(rk, u)]? = some r) :
    w.store.recordVersions[(rk, u)]? = some r ∨ ∃ t row, Publication env w t row w' ∧ ∃ d ∈ (w.pendingOf t).docs,
      d.rk = rk ∧ u = w.nextVersion row ∧ r = d.row env (commitEvent t row (w.store.iterWriteSet t) (w.nextVersion row)) := by
  cases h with
  | kept h _ =>
    rw [catalog_lookup (fun s => s.recordVersions[(rk, u)]?) (fun _ => rfl) h] at hr
    exact .inl hr
  | @collected v hv h _ =>
    have hgc : w'.store.recordVersions[(rk, u)]? = v.collected.store.recordVersions[(rk, u)]? :=
      catalog_lookup (fun s => s.recordVersions[(rk, u)]?) (fun _ => rfl) h
    rw [hgc] at hr
    have hmem := Store.mem_recordRows.2 hr
    have hdrop : v.collected.store.recordRows rk = _ := v.store.recordRows_gc none rk
    rw [hdrop] at hmem
    have hold := Store.mem_recordRows.1 (List.mem_of_mem_drop hmem)
    rw [catalog_lookup (fun s => s.recordVersions[(rk, u)]?) (fun _ => rfl) hv] at hold
    exact .inl hold
  | @published t row hpub =>
    rcases hpub.row_cases (hdrafts.active t row hpub.found hpub.active) hr with hold | hd
    · exact .inl hold
    · exact .inr ⟨t, row, hpub, hd⟩

theorem CatalogStep.latest_cases (h : CatalogStep env w w') (hdrafts : Drafts w) (hagree : w.store.Agrees) {r : StoredRecord}
    (hr : w'.store.recordIndex[rk]? = some r) :
    w.store.recordIndex[rk]? = some r ∨ ∃ t row, Publication env w t row w' ∧ ∃ d ∈ (w.pendingOf t).docs, d.rk = rk ∧
      r = d.latest env (commitEvent t row (w.store.iterWriteSet t) (w.nextVersion row)) := by
  cases h with
  | kept h _ =>
    rw [catalog_lookup (fun s => s.recordIndex[rk]?) (fun _ => rfl) h] at hr
    exact .inl hr
  | @collected v hv h _ =>
    have hgc : w'.store.recordIndex[rk]? = v.collected.store.recordIndex[rk]? :=
      catalog_lookup (fun s => s.recordIndex[rk]?) (fun _ => rfl) h
    have hold : v.store.recordIndex[rk]? = some r := hgc.symm.trans hr
    rw [catalog_lookup (fun s => s.recordIndex[rk]?) (fun _ => rfl) hv] at hold
    exact .inl hold
  | @published t row hpub =>
    rcases hpub.latest_cases (hdrafts.active t row hpub.found hpub.active) hagree hr with hold | hd
    · exact .inl hold
    · exact .inr ⟨t, row, hpub, hd⟩

theorem CatalogStep.chunks (h : CatalogStep env w w') : w'.store.chunkIndex = w.store.chunkIndex := by
  cases h with
  | kept h _ => exact catalog_lookup Store.chunkIndex (fun _ => rfl) h
  | @collected v hv h _ =>
    have hgc : w'.store.chunkIndex = v.collected.store.chunkIndex := catalog_lookup Store.chunkIndex (fun _ => rfl) h
    have hold : v.store.chunkIndex = w.store.chunkIndex := catalog_lookup Store.chunkIndex (fun _ => rfl) hv
    exact hgc.trans hold
  | published hpub => exact hpub.chunks

theorem CatalogStep.mems_cases (h : CatalogStep env w w') : w'.mems = w.mems ∨ ∃ t row, Publication env w t row w' := by
  cases h with
  | kept _ hmems | collected _ _ hmems => exact .inl hmems
  | published hpub => exact .inr ⟨_, _, hpub⟩

theorem Publication.agrees (h : Publication env w t row w') (hdraft : Draft w t row) (hagree : w.store.Agrees) :
    w'.store.Agrees := by
  intro rk key hkey
  have hold := hagree rk key hkey
  let v := w.nextVersion row
  let ws := w.store.iterWriteSet t
  have hversion : ∀ d ∈ (w.pendingOf t).docs, (d.entry (commitEvent t row ws v)).commitVersion = v :=
    fun d hd => hdraft.docVersion ws hd
  -- what stands under the keys of the transaction is not newer than its snapshot
  have hle : ∀ k ∈ row.writeKeys, ∀ e ∈ (w.store.readChain k).entries.getLast?, e.commitVersion ≤ row.snapshotVersion :=
    fun k hk e he => Store.newerKey_none h.newest hk he
  have hnewer : ∀ d ∈ (w.pendingOf t).docs, ∀ cur, w.store.recordIndex[d.rk]? = some cur → cur.entry.commitVersion ≤ v :=
    fun d hd cur hcur => h.latest_le hdraft hagree hd hcur
  have hrows : ∀ u : Nat, w'.store.recordVersions[(rk, u)]? = _ := fun u =>
    (congrArg (fun s : Store => s.recordVersions[(rk, u)]?) h.indexes).trans
      (hdraft.keyed.recordVersions_indexed hversion hkey w.store u)
  have hindex : w'.store.recordIndex[rk]? = _ :=
    (congrArg (fun s : Store => s.recordIndex[rk]?) h.indexes).trans (hdraft.keyed.recordIndex_indexed hversion hnewer hkey)
  have hchain := h.chains key
  have hlast := h.versions key
  cases hdoc : (w.pendingOf t).docAt key with
  | none =>
    have hout : key ∉ row.writeKeys := fun hmem => (hdraft.keys key).1 hmem hdoc
    refine hold.congr (fun u => (hrows u).trans (by simp [hdoc])) ?_ (hindex.trans (by simp [hdoc])) ?_
    · rw [hchain, if_neg hout, List.append_nil]
    · rw [hlast, if_neg hout]
  | some d =>
    obtain ⟨hd, rfl⟩ := PendingTxn.docAt_mem hdoc
    have hin : d.key ∈ row.writeKeys := (hdraft.keys d.key).2 (by simp [hdoc])
    rw [if_pos hin] at hchain hlast
    have hdel := hdraft.isDeleted hdoc
    have hstamp : (chainEntry t ws d.key v).stamp = (v, d.deleted) := by
      have hdeleted : (chainEntry t ws d.key v).deleted = Coordinator.isDeleted ws d.key := by
        unfold chainEntry
        split <;> simp [*, VersionEntry.tombstone, VersionEntry.new]
      simp only [VersionEntry.stamp, chainEntry_commitVersion, hdeleted, ws, hdel]
    have hentry : (d.entry (commitEvent t row ws v)).stamp = (v, d.deleted) := by
      rw [RecordIndexEntry.stamp, hversion d hd]
      rfl
    refine hold.append (r := d.row env (commitEvent t row ws v)) ?_ (fun u => (hrows u).trans ?_) hchain
      (hindex.trans (by rw [hdoc]; rfl)) hlast
      (hentry.trans hstamp.symm) (hentry.trans hstamp.symm) (by rw [hstamp, VersionRecord.stamp, versionRecord, hdel])
    · intro e' he'
      rw [chainEntry_commitVersion]
      obtain ⟨e, he⟩ := Option.isSome_iff_exists.1 (List.getLast?_isSome.2 (List.ne_nil_of_mem he'))
      have hmax := le_of_getLast? hold.ascending he e' he'
      have hsnap := hle d.key hin e he
      have hlt := h.lt_nextVersion (List.ne_nil_of_mem hin)
      omega
    · rw [chainEntry_commitVersion, hdoc]
      by_cases hu : u = v <;> simp [hu, v, ws, Option.filter]

theorem CatalogStep.agrees (h : CatalogStep env w w') (hdrafts : Drafts w) (hagree : w.store.Agrees) :
    w'.store.Agrees := by
  cases h with
  | kept h _ => exact fun rk key hkey => (hagree rk key hkey).of_catalog h
  | collected hu h _ => exact fun rk key hkey => (((hagree rk key hkey).of_catalog hu).collected none).of_catalog h
  | published h => exact h.agrees (hdrafts.active _ _ h.found h.active) hagree

/-! ## Runs of structured requests -/

/-- What holds between structured requests. -/
structure Structured (w : World) : Prop where
  inv : Inv True w fun _ => none
  keyed : w.store.Keyed
  drafts : Drafts w
  agrees : w.store.Agrees

theorem Structured.empty : Structured {} := by
  refine ⟨World.inv_empty True, by simp [Store.Keyed], ⟨fun t row hrow => ?_, fun t _ => by simp⟩, fun rk key _ => ⟨fun v row hrow => ?_, ?_, ?_, ?_⟩⟩
  · simp [Store.getTxnState] at hrow
  · simp at hrow
  all_goals simp [Store.recordRows, Store.readChain, VersionChain.new]

theorem Structured.step {r : Request} (h : Structured w) (hr : r.structured = true) (hstep : r.step env w = some w') :
    Structured w' ∧ RequestEffect env w r w' ∧ CatalogStep env w w' ∧ RowsStep env w w' r := by
  obtain ⟨heffect, hinv⟩ := RequestEffect.of_step h.inv hstep
  have hcatalog := CatalogStep.of_effect h.inv heffect
  have hkeyed : w'.store.Keyed := by
    unfold Request.step at hstep
    split at hstep
    case isFalse => cases hstep
    case isTrue =>
      cases hstep
      exact Prog.run_keeps World.exec (I := fun w => w.store.Keyed) (fun a _ hw => .exec a hw) _ h.keyed
  exact ⟨⟨hinv, hkeyed, h.drafts.step hr heffect, hcatalog.agrees h.drafts h.agrees⟩, heffect, hcatalog,
    .of_effect h.inv h.drafts hr heffect⟩

theorem Structured.of_run {hist : List (World × Request × World)} (hrun : Run (Request.step env) {} hist w)
    (hcond : ∀ x ∈ hist, x.2.1.structured = true) : Structured w :=
  (hrun.invariant (I := Structured) (C := fun _ r => r.structured = true) .empty
    (fun _ _ _ hu hr hstep => (hu.step hr hstep).1) hcond).1

/-- In every state that structured requests and sweeps reach, the chain of a document and its historical rows hold the
same versions, and `TBL_RECORD_INDEX` and `TBL_VERSIONS` hold the newest of them. -/
theorem version_tables_agree (env : Env) {hist : List (World × Request × World)} {w : World}
    (hrun : Run (Request.step env) {} hist w) (hcond : ∀ x ∈ hist, x.2.1.structured = true) {rk : RecordKey}
    {key : String} (hkey : DocKey rk key) (v : Nat) (deleted : Bool) :
    ((∃ e ∈ (w.store.readChain key).entries, e.stamp = (v, deleted)) ↔
      ∃ (u : Nat) (row : StoredRecordVersion), w.store.recordVersions[(rk, u)]? = some row ∧ row.entry.stamp = (v, deleted)) ∧
    ((∃ row, w.store.recordIndex[rk]? = some row ∧ row.entry.stamp = (v, deleted)) ↔
      ∃ e ∈ (w.store.readChain key).entries, e.stamp = (v, deleted) ∧
        ∀ e' ∈ (w.store.readChain key).entries, e'.commitVersion ≤ v) ∧
    ((∃ row, w.store.versions[key]? = some row ∧ row.stamp = (v, deleted)) ↔
      ∃ e ∈ (w.store.readChain key).entries, e.stamp = (v, deleted) ∧
        ∀ e' ∈ (w.store.readChain key).entries, e'.commitVersion ≤ v) := by
  have h := (Structured.of_run hrun hcond).agrees rk key hkey
  have hnewest : (w.store.readChain key).entries.getLast?.map VersionEntry.stamp = some (v, deleted) ↔
      ∃ e ∈ (w.store.readChain key).entries, e.stamp = (v, deleted) ∧
        ∀ e' ∈ (w.store.readChain key).entries, e'.commitVersion ≤ v := by
    rw [Option.map_eq_some_iff]
    constructor
    · rintro ⟨e, he, hstamp⟩
      have hv : e.commitVersion = v := congrArg Prod.fst hstamp
      exact ⟨e, List.mem_of_getLast? he, hstamp, fun e' he' => hv ▸ le_of_getLast? h.ascending he e' he'⟩
    · rintro ⟨e, he, hstamp, hmax⟩
      obtain ⟨last, hlast⟩ := Option.isSome_iff_exists.1 (List.getLast?_isSome.2 (List.ne_nil_of_mem he))
      have hle := le_of_getLast? h.ascending hlast e he
      have hv : e.commitVersion = v := congrArg Prod.fst hstamp
      have heq : last.commitVersion = e.commitVersion :=
        le_antisymm (hv ▸ hmax last (List.mem_of_getLast? hlast)) hle
      -- a chain has one entry of a version
      have hinj : last = e := List.inj_on_of_nodup_map (f := (·.commitVersion))
        (List.pairwise_map.2 (h.ascending.imp Nat.ne_of_lt)) (List.mem_of_getLast? hlast) he heq
      exact ⟨last, hlast, hinj ▸ hstamp⟩
  refine ⟨?_, ?_, ?_⟩
  · rw [← List.mem_map, ← h.rows, List.mem_map]
    constructor
    · rintro ⟨⟨⟨rk', u⟩, row⟩, hmem, hstamp⟩
      obtain ⟨rfl, hrow⟩ := Store.mem_recordRows_iff.1 hmem
      refine ⟨u, row, hrow, ?_⟩
      rw [RecordIndexEntry.stamp, h.keyed u row hrow]
      exact hstamp
    · rintro ⟨u, row, hrow, hstamp⟩
      refine ⟨((rk, u), row), Store.mem_recordRows.2 hrow, ?_⟩
      rw [RecordIndexEntry.stamp, h.keyed u row hrow] at hstamp
      exact hstamp
  · rw [← hnewest, ← h.latest, Option.map_eq_some_iff]
  · rw [← hnewest, ← h.version, Option.map_eq_some_iff]

/-- A record that is written, overwritten and deleted, with a collection in between. -/
theorem version_tables_agree_deleted : ∃ hist w, Run (Request.step .sample) {} hist w ∧ ∃ row,
    w.store.recordIndex[("s", "t", "r")]? = some row ∧ row.entry.stamp = (3, true) ∧
    ∃ e ∈ (w.store.readChain "_xtable/s/t/r.json").entries, e.stamp = (3, true) := by
  obtain ⟨w, hrun, htest⟩ := Run.exists_of_exec (guarded (fun _ r => r.structured) (Request.step .sample)) {}
    [.call (.begin "T" none 0), .upsertRecord "T" "s" "t" "r" none .null, .commitTxn "T" fun _ => false,
      .call (.begin "U" none 0), .upsertRecord "U" "s" "t" "r" none .null, .commitTxn "U" fun _ => false,
      .call (.sweep 0 1), .call (.begin "V" none 0), .deleteRecord "V" "s" "t" "r", .commitTxn "V" fun _ => false]
    (fun w => (w.store.recordIndex[("s", "t", "r")]?).any fun row => row.entry.stamp = (3, true)) (by decide +kernel)
  obtain ⟨hrun, hguard⟩ := hrun.of_guarded
  obtain ⟨row, hrow, hstamp⟩ := (Option.any_eq_true ..).1 htest
  have hstamp' : row.entry.stamp = (3, true) := of_decide_eq_true hstamp
  have hkey : DocKey ("s", "t", "r") "_xtable/s/t/r.json" := .record (by decide +kernel)
  obtain ⟨e, he, hnewest, -⟩ := (version_tables_agree .sample hrun hguard hkey 3 true).2.1.1 ⟨row, hrow, hstamp'⟩
  exact ⟨_, w, hrun, row, hrow, hstamp', e, he, hnewest⟩

end Xtable
