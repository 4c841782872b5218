import Xtable.Theorems.Leftovers
import Xtable.Theorems.Keys
import Xtable.Theorems.Collection

/-! A structured transaction writes documents: records and schema versions. Each has an object key, under which it
    is staged and versioned, and a record key, under which it is indexed. The row, the write set and the pending
    entry of an active transaction name the same documents. -/

namespace Xtable

open Coordinator

variable {p : PendingTxn} {userMeta : List (String × String)} {contentType : Option String}

/-! ## Keys of documents -/

/-- The record key and the object key of one document. -/
inductive DocKey : RecordKey → String → Prop where
  | record {space table recordId key : String} (h : recordKey space table recordId = .ok key) :
      DocKey (space, table, recordId) key
  | schema {space name key : String} {version : Nat} (h : schemaKey space name version = .ok key) :
      DocKey (space, "_schema", schemaId name version) key

namespace DocKey

variable {rk rk' : RecordKey} {key key' : String}

theorem parse (h : DocKey rk key) : parseRecordKey key = some rk := by
  cases h with
  | record h => exact parseRecordKey_record (recordKeyOf_of_recordKey h)
  | schema h => exact parseRecordKey_schema (schemaKeyOf_of_schemaKey h)

theorem memKey_eq (h : DocKey rk key) : memKey key = rk := by
  rw [memKey, h.parse]
  rfl

theorem record_unique (h : DocKey rk key) (h' : DocKey rk' key) : rk = rk' :=
  Option.some.inj (h.parse.symm.trans h'.parse)

theorem key_unique (h : DocKey rk key) (h' : DocKey rk key') : key = key' := by
  cases h with
  | record h =>
    generalize hrk : (_, _, _) = rk at h'
    cases h' with
    | record h' =>
      obtain ⟨rfl, hrest⟩ := Prod.mk.inj hrk
      obtain ⟨rfl, rfl⟩ := Prod.mk.inj hrest
      exact Except.ok.inj (h.symm.trans h')
    | schema h' =>
      obtain ⟨-, hrest⟩ := Prod.mk.inj hrk
      exact absurd (Prod.mk.inj hrest).1 (recordKeyOf_of_recordKey h).reserved
  | schema h =>
    generalize hrk : (_, _, _) = rk at h'
    cases h' with
    | record h' =>
      obtain ⟨-, hrest⟩ := Prod.mk.inj hrk
      exact absurd (Prod.mk.inj hrest).1.symm (recordKeyOf_of_recordKey h').reserved
    | schema h' =>
      obtain ⟨rfl, hrest⟩ := Prod.mk.inj hrk
      obtain ⟨rfl, rfl⟩ := schemaId_inj (schemaKeyOf_of_schemaKey h).plainName (schemaKeyOf_of_schemaKey h').plainName
        (Prod.mk.inj hrest).2
      exact Except.ok.inj (h.symm.trans h')

end DocKey

/-! ## Pending documents -/

/-- A pending document, as the hook indexes it. -/
structure Doc where
  rk : RecordKey
  key : String
  deleted : Bool
  schemaVersion : Nat
  body : Value

def PendingRecord.doc (r : PendingRecord) : Doc :=
  ⟨(r.space, r.table, r.recordId), r.backendKey, r.deleted, r.schemaVersion, r.body⟩

def PendingSchema.doc (p : PendingSchema) : Doc :=
  ⟨(p.space, "_schema", schemaId p.name p.version), p.backendKey, false, p.version, p.body⟩

/-- The documents of a transaction, in the order in which the hook indexes them. -/
def PendingTxn.docs (p : PendingTxn) : List Doc := p.records.map PendingRecord.doc ++ p.schemas.map PendingSchema.doc

/-- What is pending was noted together with the key it was staged under. -/
structure PendingTxn.Keyed (p : PendingTxn) : Prop where
  records : ∀ r ∈ p.records, recordKey r.space r.table r.recordId = .ok r.backendKey
  schemas : ∀ q ∈ p.schemas, schemaKey q.space q.name q.version = .ok q.backendKey

theorem PendingTxn.Keyed.docKey (h : p.Keyed) {d : Doc} (hd : d ∈ p.docs) : DocKey d.rk d.key := by
  rcases List.mem_append.1 hd with hd | hd
  · obtain ⟨r, hr, rfl⟩ := List.mem_map.1 hd
    exact .record (h.records r hr)
  · obtain ⟨q, hq, rfl⟩ := List.mem_map.1 hd
    exact .schema (h.schemas q hq)

theorem PendingTxn.Keyed.addRecord (h : p.Keyed) {r : PendingRecord}
    (hr : recordKey r.space r.table r.recordId = .ok r.backendKey) : (p.addRecord r).Keyed := by
  refine ⟨fun r' hr' => ?_, h.schemas⟩
  rcases List.mem_append.1 hr' with hr' | hr'
  · exact h.records r' hr'
  · rw [List.mem_singleton.1 hr']
    exact hr

theorem PendingTxn.Keyed.addSchema (h : p.Keyed) {q : PendingSchema}
    (hq : schemaKey q.space q.name q.version = .ok q.backendKey) : (p.addSchema q).Keyed := by
  refine ⟨h.records, fun q' hq' => ?_⟩
  rcases List.mem_append.1 hq' with hq' | hq'
  · exact h.schemas q' hq'
  · rw [List.mem_singleton.1 hq']
    exact hq

/-- The last document of a transaction under a key: the one that stands. -/
def PendingTxn.docAt (p : PendingTxn) (key : String) : Option Doc := p.docs.reverse.find? fun d => d.key = key

namespace PendingTxn

variable {p : PendingTxn}

theorem docAt_mem {key : String} {d : Doc} (h : p.docAt key = some d) : d ∈ p.docs ∧ d.key = key :=
  ⟨List.mem_reverse.1 (List.mem_of_find?_eq_some h), by simpa using List.find?_some h⟩

theorem docAt_eq_none {key : String} : p.docAt key = none ↔ ∀ d ∈ p.docs, d.key ≠ key := by
  simp [docAt]

theorem docAt_addSchema (q : PendingSchema) (key : String) :
    (p.addSchema q).docAt key = if q.backendKey = key then some q.doc else p.docAt key := by
  have hdocs : (p.addSchema q).docs = p.docs ++ [q.doc] := by simp [docs, addSchema]
  rw [docAt, hdocs, List.reverse_append]
  by_cases hkey : q.backendKey = key
  · simp [hkey, PendingSchema.doc]
  · simp [hkey, PendingSchema.doc, docAt]

theorem docAt_addRecord (hp : p.Keyed) {r : PendingRecord}
    (hr : recordKey r.space r.table r.recordId = .ok r.backendKey) (key : String) :
    (p.addRecord r).docAt key = if r.backendKey = key then some r.doc else p.docAt key := by
  have hdocs : (p.addRecord r).docs.reverse =
      (p.schemas.map PendingSchema.doc).reverse ++ r.doc :: (p.records.map PendingRecord.doc).reverse := by
    simp [docs, addRecord]
  have hdocs' : p.docs.reverse = (p.schemas.map PendingSchema.doc).reverse ++ (p.records.map PendingRecord.doc).reverse := by
    simp [docs]
  rw [docAt, docAt, hdocs, hdocs', List.find?_append, List.find?_append]
  by_cases hkey : r.backendKey = key
  · subst hkey
    have hnone : (p.schemas.map PendingSchema.doc).reverse.find? (fun d => d.key = r.backendKey) = none := by
      refine List.find?_eq_none.2 fun d hd heq => ?_
      obtain ⟨q, hq, rfl⟩ := List.mem_map.1 (List.mem_reverse.1 hd)
      have hschema := schemaKeyOf_of_schemaKey (hp.schemas q hq)
      have hkeys : q.backendKey = r.backendKey := of_decide_eq_true heq
      rw [hkeys] at hschema
      have hparse := (parseRecordKey_schema hschema).symm.trans (parseRecordKey_record (recordKeyOf_of_recordKey hr))
      obtain ⟨-, hrest⟩ := Prod.mk.inj (Option.some.inj hparse)
      exact (recordKeyOf_of_recordKey hr).reserved (Prod.mk.inj hrest).1.symm
    simp [hnone, PendingRecord.doc]
  · simp [hkey, PendingRecord.doc]

end PendingTxn

/-! ## Index rows -/

section Indexed

variable {env : Env} {ev : CommitEvent} {v : Nat} {rk : RecordKey} {key : String}

def Doc.entry (ev : CommitEvent) (d : Doc) : RecordIndexEntry :=
  ⟨Engine.pickRecordVersion ev.writes d.key 0, d.deleted, d.key, d.schemaVersion, ev.txnId⟩

def Doc.row (env : Env) (ev : CommitEvent) (d : Doc) : StoredRecordVersion := ⟨d.entry ev, utf8 (env.jsonText d.body)⟩

def Doc.latest (env : Env) (ev : CommitEvent) (d : Doc) : StoredRecord := ⟨d.entry ev, env.jsonText d.body⟩

def Store.indexDoc (env : Env) (ev : CommitEvent) (s : Store) (d : Doc) : Store :=
  s.putRecordIndexWithBody d.rk (d.entry ev) (env.jsonText d.body) (utf8 (env.jsonText d.body))

def PendingSchema.indexRow (p : PendingSchema) : (String × String) × SchemaIndexEntry :=
  ((p.space, p.name), ⟨p.version, p.backendKey⟩)

theorem Store.indexed_eq (hp : p.Keyed) (s : Store) :
    s.indexed env ev p = { p.docs.foldl (Store.indexDoc env ev) s with
      schemaIndex := s.schemaIndex.insertAll (p.schemas.map PendingSchema.indexRow) } := by
  have hkeep : ∀ (docs : List Doc) (s : Store), (docs.foldl (Store.indexDoc env ev) s).schemaIndex = s.schemaIndex :=
    fun docs s => foldl_keeps (f := Store.indexDoc env ev) Store.schemaIndex (fun _ _ => rfl) docs s
  have hrecords : p.records.foldl (Store.indexPendingRecord env ev) s =
      (p.records.map PendingRecord.doc).foldl (Store.indexDoc env ev) s := by
    rw [List.foldl_map]
    rfl
  have hschemas : ∀ (l : List PendingSchema), (∀ q ∈ l, schemaKey q.space q.name q.version = .ok q.backendKey) →
      ∀ s : Store, l.foldl (Store.indexPendingSchema env ev) s =
        { (l.map PendingSchema.doc).foldl (Store.indexDoc env ev) s with
          schemaIndex := s.schemaIndex.insertAll (l.map PendingSchema.indexRow) } := by
    intro l
    induction l with
    | nil => exact fun _ _ => rfl
    | cons q l ih =>
      intro hl s
      have hstep : s.indexPendingSchema env ev q =
          { s.indexDoc env ev q.doc with schemaIndex := s.schemaIndex.insert (q.space, q.name) ⟨q.version, q.backendKey⟩ } := by
        unfold Store.indexPendingSchema
        rw [schemaRecordKeyParts_schema (schemaKeyOf_of_schemaKey (hl q (by simp)))]
        rfl
      -- the rows of schema names and of documents are in tables of their own
      have hcomm : ∀ (docs : List Doc) (s : Store) x, docs.foldl (Store.indexDoc env ev) { s with schemaIndex := x } =
          { docs.foldl (Store.indexDoc env ev) s with schemaIndex := x } := by
        intro docs
        induction docs with
        | nil => exact fun _ _ => rfl
        | cons d docs ihd => exact fun s x => ihd (s.indexDoc env ev d) x
      rw [List.foldl_cons, hstep, ih (fun q hq => hl q (by simp [hq])), hcomm]
      rfl
  rw [Store.indexed, hrecords, hschemas _ hp.schemas, PendingTxn.docs, List.foldl_append, hkeep]

theorem recordVersions_indexDocs (docs : List Doc) (s : Store) :
    (docs.foldl (Store.indexDoc env ev) s).recordVersions =
      s.recordVersions.insertAll (docs.map fun d => ((d.rk, (d.entry ev).commitVersion), d.row env ev)) := by
  induction docs generalizing s with
  | nil => rfl
  | cons d docs ih => exact ih _

theorem recordIndex_indexDocs {docs : List Doc} (hv : ∀ d ∈ docs, (d.entry ev).commitVersion = v) {s : Store}
    (hold : ∀ d ∈ docs, ∀ cur, s.recordIndex[d.rk]? = some cur → cur.entry.commitVersion ≤ v) :
    (docs.foldl (Store.indexDoc env ev) s).recordIndex =
      s.recordIndex.insertAll (docs.map fun d => (d.rk, d.latest env ev)) := by
  induction docs generalizing s with
  | nil => rfl
  | cons d docs ih =>
    have hstep : (s.indexDoc env ev d).recordIndex = s.recordIndex.insert d.rk (d.latest env ev) := by
      simp only [Store.indexDoc, Store.putRecordIndexWithBody]
      cases hcur : s.recordIndex[d.rk]? with
      | none => rfl
      | some cur =>
        have hle := hold d (by simp) cur hcur
        rw [← hv d (by simp)] at hle
        simp [hle, Doc.latest]
    rw [List.foldl_cons, ih (fun d hd => hv d (by simp [hd])) fun d' hd' cur hcur => ?_, hstep]
    · rfl
    · rw [hstep, Table.get_insert] at hcur
      split at hcur
      · cases hcur
        exact (hv d (by simp)).le
      · exact hold d' (by simp [hd']) cur hcur

theorem PendingTxn.Keyed.find?_rk (hp : p.Keyed) (hkey : DocKey rk key) :
    (p.docs.reverse.find? fun d => d.rk = rk) = p.docAt key := by
  refine List.find?_congr fun d hd => ?_
  have hdoc := hp.docKey (List.mem_reverse.1 hd)
  have hiff : d.rk = rk ↔ d.key = key := by
    constructor
    · rintro rfl
      exact hdoc.key_unique hkey
    · rintro rfl
      exact hdoc.record_unique hkey
  simp only [hiff]

theorem PendingTxn.Keyed.recordVersions_indexed (hp : p.Keyed) (hv : ∀ d ∈ p.docs, (d.entry ev).commitVersion = v)
    (hkey : DocKey rk key) (s : Store) (u : Nat) :
    (s.indexed env ev p).recordVersions[(rk, u)]? =
      ((p.docAt key).filter fun _ => u = v).elim s.recordVersions[(rk, u)]? fun d => some (d.row env ev) := by
  have hfind : (p.docs.reverse.find? fun d => (d.rk, (d.entry ev).commitVersion) = (rk, u)) =
      (p.docAt key).filter fun _ => u = v := by
    by_cases hu : u = v
    · subst hu
      have hself : (p.docAt key).filter (fun _ => decide (u = u)) = p.docAt key := by cases p.docAt key <;> simp
      rw [hself, ← hp.find?_rk hkey]
      refine List.find?_congr fun d hd => ?_
      rw [hv d (List.mem_reverse.1 hd)]
      simp
    · rw [Option.filter_eq_none_iff.2 (by simp [hu]), List.find?_eq_none]
      intro d hd
      rw [hv d (List.mem_reverse.1 hd)]
      simp [Ne.symm hu]
  rw [Store.indexed_eq hp]
  simp only [recordVersions_indexDocs, Table.get_insertAll, ← List.map_reverse, List.find?_map, Function.comp_def, hfind]
  cases (p.docAt key).filter fun _ => u = v <;> rfl

theorem PendingTxn.Keyed.recordIndex_indexed (hp : p.Keyed) (hv : ∀ d ∈ p.docs, (d.entry ev).commitVersion = v)
    {s : Store} (hold : ∀ d ∈ p.docs, ∀ cur, s.recordIndex[d.rk]? = some cur → cur.entry.commitVersion ≤ v)
    (hkey : DocKey rk key) :
    (s.indexed env ev p).recordIndex[rk]? =
      (p.docAt key).elim s.recordIndex[rk]? fun d => some (d.latest env ev) := by
  rw [Store.indexed_eq hp]
  simp only [recordIndex_indexDocs hv hold, Table.get_insertAll, ← List.map_reverse, List.find?_map, Function.comp_def,
    hp.find?_rk hkey]
  cases p.docAt key <;> rfl

end Indexed

/-! ## Drafts -/

section Drafts

variable {env : Env} {w w' : World} {t key : String} {row : TxnStateRecord}

/-- The row, the write set and the pending entry of an active transaction name the same documents. -/
structure Draft (w : World) (t : String) (row : TxnStateRecord) : Prop where
  keyed : (w.pendingOf t).Keyed
  keys : ∀ k, k ∈ row.writeKeys ↔ (w.pendingOf t).docAt k ≠ none
  writes : ∀ k : String, (w.store.writeSet[(t, k)]?).map (·.deleted) = ((w.pendingOf t).docAt k).map (·.deleted)

structure Drafts (w : World) : Prop where
  active : ∀ t row, w.store.getTxnState t = some row → row.status = .active → Draft w t row
  fresh : ∀ t, w.store.getTxnState t = none → w.pending[t]? = none ∧ ∀ k : String, w.store.writeSet[(t, k)]? = none

/-- Nothing of the other transactions changes. -/
structure Footprint (t : String) (w w' : World) : Prop where
  rows : ∀ t', t ≠ t' → w'.store.getTxnState t' = w.store.getTxnState t'
  writes : ∀ t' (k : String), t ≠ t' → w'.store.writeSet[(t', k)]? = w.store.writeSet[(t', k)]?
  pending : ∀ t' : String, t ≠ t' → w'.pending[t']? = w.pending[t']?

theorem pendingOf_congr (h : w'.pending[t]? = w.pending[t]?) : w'.pendingOf t = w.pendingOf t := by
  simp only [World.pendingOf, h]

theorem Draft.congr {row' : TxnStateRecord} (h : Draft w t row) (hkeys : row'.writeKeys = row.writeKeys)
    (hpending : w'.pending[t]? = w.pending[t]?)
    (hwrites : ∀ k : String, w'.store.writeSet[(t, k)]? = w.store.writeSet[(t, k)]?) : Draft w' t row' := by
  obtain ⟨hkeyed, hks, hws⟩ := h
  rw [← pendingOf_congr hpending] at hkeyed hks hws
  exact ⟨hkeyed, fun k => by rw [hkeys]; exact hks k, fun k => by rw [hwrites]; exact hws k⟩

/-! ### What the steps of a transaction leave to the others -/

theorem Footprint.refl : Footprint t w w := ⟨fun _ _ => rfl, fun _ _ _ => rfl, fun _ _ => rfl⟩

theorem Footprint.discarded (w : World) (t : String) (row : TxnStateRecord) (reason : String) :
    Footprint t w (w.discarded t row reason) := by
  refine ⟨fun t' ht => ?_, fun t' k ht => ?_, fun t' _ => ?_⟩
  · rw [txnState_discarded, if_neg ht]
  · rw [writeSet_discarded, if_neg]
    rintro ⟨x, -, hx⟩
    exact ht (Prod.mk.inj hx).1
  · rw [pending_discarded]

theorem Commits.footprint {aged : String → Bool} {r : Except XtableError Nat} (h : Commits env aged t w r w') :
    Footprint t w w' ∧ ∀ row, w'.store.getTxnState t = some row → row.status ≠ .active := by
  obtain ⟨u, hw', -, -, hset, hpend⟩ := h.staging
  have hpending : ∀ t' : String, t ≠ t' → w'.pending[t']? = w.pending[t']? := by
    intro t' ht
    rcases hpend with heq | heq <;> simp [heq, ht]
  have hwrites : ∀ t' (k : String), t ≠ t' → w'.store.writeSet[(t', k)]? = w.store.writeSet[(t', k)]? := by
    intro t' k ht
    rcases hw' with rfl | rfl
    · rw [hset]
    · refine (foldl_drop (fun w => w.store.writeSet) (fun x : String × WriteSetEntry =>
        x.2.bodyHandle.map fun _ => (t, x.2.backendKey)) writeSet_dropSpilled _ _ _).trans ?_
      rw [if_neg, hset]
      rintro ⟨x, -, hx⟩
      obtain ⟨handle, -, heq⟩ := Option.map_eq_some_iff.1 hx
      exact ht (Prod.mk.inj heq).1
  rcases h.rows with ⟨rfl, hinactive⟩ | ⟨row, row', -, -, hrow', hrows⟩
  · exact ⟨.refl, hinactive⟩
  · refine ⟨⟨fun t' ht => (hrows t').trans (if_neg ht), hwrites, hpending⟩, fun row₁ hrow₁ => ?_⟩
    cases ((hrows t).trans (if_pos rfl)).symm.trans hrow₁
    rcases hrow' with rfl | rfl <;> simp

namespace Drafts

theorem own (h : Drafts w) (hfoot : Footprint t w w')
    (hactive : ∀ row, w'.store.getTxnState t = some row → row.status = .active → Draft w' t row)
    (hfresh : w'.store.getTxnState t = none → w'.pending[t]? = none ∧ ∀ k : String, w'.store.writeSet[(t, k)]? = none) :
    Drafts w' := by
  refine ⟨fun t' row hrow hst => ?_, fun t' hrow => ?_⟩
  · by_cases ht : t = t'
    · subst ht
      exact hactive row hrow hst
    · rw [hfoot.rows t' ht] at hrow
      exact (h.active t' row hrow hst).congr rfl (hfoot.pending t' ht) fun k => hfoot.writes t' k ht
  · by_cases ht : t = t'
    · subst ht
      exact hfresh hrow
    · rw [hfoot.rows t' ht] at hrow
      obtain ⟨hpending, hwrites⟩ := h.fresh t' hrow
      exact ⟨(hfoot.pending t' ht).trans hpending, fun k => (hfoot.writes t' k ht).trans (hwrites k)⟩

theorem settle (h : Drafts w) (hfoot : Footprint t w w') (hrow : w'.store.getTxnState t = some row)
    (hst : row.status ≠ .active) : Drafts w' := by
  refine h.own hfoot (fun row' hrow' hst' => ?_) fun hnone => ?_
  · cases hrow.symm.trans hrow'
    exact absurd hst' hst
  · rw [hrow] at hnone
    cases hnone

theorem touch {row' : TxnStateRecord} (h : Drafts w) (hrow : w.store.getTxnState t = some row) (hst : row.status = .active)
    (hrow' : ∀ t', w'.store.getTxnState t' = if t = t' then some row' else w.store.getTxnState t')
    (hkeys : row'.writeKeys = row.writeKeys) (hwrites : w'.store.writeSet = w.store.writeSet)
    (hpending : w'.pending = w.pending) : Drafts w' := by
  have hown := (hrow' t).trans (if_pos rfl)
  refine h.own ⟨fun t' ht => (hrow' t').trans (if_neg ht), fun _ _ _ => by rw [hwrites], fun _ _ => by rw [hpending]⟩
    (fun row'' hrow'' hst'' => ?_) fun hnone => ?_
  · cases hown.symm.trans hrow''
    exact (h.active t row hrow hst).congr hkeys (by rw [hpending]) fun k => by rw [hwrites]
  · rw [hown] at hnone
    cases hnone

theorem noted {body : Bytes} {d : Doc} (h : Drafts w) (hrow : w.store.getTxnState t = some row)
    (hst : row.status = .active) (hp : p.Keyed)
    (hdoc : ∀ k, p.docAt k = if key = k then some d else (w.pendingOf t).docAt k) :
    Drafts { w.staged env t key body contentType userMeta d.deleted row with pending := w.pending.insert t p } := by
  set w' : World := { w.staged env t key body contentType userMeta d.deleted row with pending := w.pending.insert t p }
  have hrows : ∀ t', w'.store.getTxnState t' = if t = t' then some (row.withWriteKey key) else w.store.getTxnState t' :=
    txnState_staged hrow
  have hset : w'.store.writeSet = w.store.writeSet.insert (t, key)
      (writeEntry key body (stagedHandle env t key body) contentType userMeta d.deleted) := writeSet_staged w.store
  have hpend : w'.pendingOf t = p := by simp [World.pendingOf, w']
  obtain ⟨-, hkeys, hwrites⟩ := h.active t row hrow hst
  refine h.own ⟨fun t' ht => (hrows t').trans (if_neg ht), fun t' k ht => ?_, fun t' ht => ?_⟩ (fun row' hrow' _ => ?_)
    fun hnone => ?_
  · rw [hset, Table.get_insert, if_neg (by simp [ht])]
  · simp [w', ht]
  · cases ((hrows t).trans (if_pos rfl)).symm.trans hrow'
    refine ⟨by rw [hpend]; exact hp, fun k => ?_, fun k => ?_⟩
    · rw [hpend, hdoc]
      have hmem : k ∈ (row.withWriteKey key).writeKeys ↔ k ∈ row.writeKeys ∨ k = key := by
        unfold TxnStateRecord.withWriteKey
        split
        case isTrue hkey =>
          exact ⟨.inl, fun hk => hk.elim id fun hk => hk ▸ hkey⟩
        case isFalse => simp [TxnStateRecord.addWriteKey]
      rw [hmem, hkeys]
      by_cases hk : key = k
      · simp [hk]
      · simp [hk, Ne.symm hk]
    · rw [hpend, hdoc, hset, Table.get_insert]
      by_cases hk : key = k
      · simp [hk, writeEntry]
      · simp [hk, hwrites]
  · rw [(hrows t).trans (if_pos rfl)] at hnone
    cases hnone

theorem notedRecord {body : Bytes} {r : PendingRecord} (h : Drafts w) (hrow : w.store.getTxnState t = some row)
    (hst : row.status = .active) (hr : recordKey r.space r.table r.recordId = .ok r.backendKey) :
    Drafts ((w.staged env t r.backendKey body contentType userMeta r.deleted row).pendRecord t r) :=
  have hkeyed := (h.active t row hrow hst).keyed
  h.noted (d := r.doc) hrow hst (hkeyed.addRecord hr) (PendingTxn.docAt_addRecord hkeyed hr)

theorem notedSchema {body : Bytes} {q : PendingSchema} (h : Drafts w) (hrow : w.store.getTxnState t = some row)
    (hst : row.status = .active) (hq : schemaKey q.space q.name q.version = .ok q.backendKey) :
    Drafts ((w.staged env t q.backendKey body contentType userMeta false row).pendSchema t q) :=
  have hkeyed := (h.active t row hrow hst).keyed
  h.noted (d := q.doc) hrow hst (hkeyed.addSchema hq) (PendingTxn.docAt_addSchema q)

theorem commits {aged : String → Bool} {r : Except XtableError Nat} (h : Drafts w) (hc : Commits env aged t w r w') :
    Drafts w' := by
  obtain ⟨hfoot, hinactive⟩ := hc.footprint
  refine h.own hfoot (fun row hrow hst => absurd hst (hinactive row hrow)) fun hnone => ?_
  rcases hc.rows with ⟨rfl, -⟩ | ⟨-, row', -, -, -, hrows⟩
  · exact h.fresh t hnone
  · cases ((hrows t).trans (if_pos rfl)).symm.trans hnone

theorem unpend (h : Drafts w) (hinactive : ∀ row, w.store.getTxnState t = some row → row.status ≠ .active) :
    Drafts (w.unpend t) := by
  refine h.own ⟨fun _ _ => rfl, fun _ _ _ => rfl, fun t' ht => ?_⟩
    (fun row hrow hst => absurd hst (hinactive row hrow)) fun hnone => ⟨?_, (h.fresh t hnone).2⟩
  · simp [World.unpend, ht]
  · simp [World.unpend]

theorem sweptStale (h : Drafts w) (now timeout : Int) : Drafts (w.sweptStale now timeout) :=
  sweptStale_keeps (fun _ _ _ hu _ _ => hu.settle (.discarded ..) ((txnState_discarded ..).trans (if_pos rfl)) (by simp)) h
    now timeout

end Drafts

theorem Drafts.step {r : Request} (h : Drafts w) (hr : r.structured = true) (he : RequestEffect env w r w') :
    Drafts w' := by
  cases he with
  | unchanged => exact h
  | call hc =>
    cases hc with
    | unchanged => exact h
    | @begin t idem now hrow =>
      have hrows : ∀ t', (w.begun t idem now).store.getTxnState t' = _ := txnState_begun
      obtain ⟨hpending, hwrites⟩ := h.fresh t hrow
      refine h.own ⟨fun t' ht => (hrows t').trans (if_neg ht), fun _ _ _ => rfl, fun _ _ => rfl⟩
        (fun row hrow' _ => ?_) fun hnone => ?_
      · cases ((hrows t).trans (if_pos rfl)).symm.trans hrow'
        have hpend : (w.begun t idem now).pendingOf t = {} := by
          simp [World.pendingOf, World.begun, hpending]
        refine ⟨by rw [hpend]; exact ⟨by simp, by simp⟩, fun k => ?_, fun k => ?_⟩
        · rw [hpend]
          simp [TxnStateRecord.newActive, PendingTxn.docAt, PendingTxn.docs]
        · have hnone : (w.begun t idem now).store.writeSet[(t, k)]? = none := hwrites k
          rw [hpend, hnone]
          simp [PendingTxn.docAt, PendingTxn.docs]
      · rw [(hrows t).trans (if_pos rfl)] at hnone
        cases hnone
    | stage | commit | abort => cases hr
    | read hrow hst =>
      rw [noteRead_eq hrow]
      exact h.touch hrow hst (txnState_put _ _ _) (by simp) rfl rfl
    | heartbeat hrow hst => exact h.touch hrow hst (txnState_put _ _ _) rfl rfl rfl
    | sweepStale => exact h.sweptStale ..
    | @sweep now timeout =>
      obtain ⟨hactive, hfresh⟩ := h.sweptStale now timeout
      exact ⟨fun t row hrow hst => (hactive t row hrow hst).congr rfl rfl fun _ => rfl, hfresh⟩
  | @schema _ t space name key body row _ hkey hrow hst =>
    exact h.notedSchema (q := ⟨space, name, _, body, key⟩) hrow hst hkey
  | @upsert t space table recordId key schemaVersion body row hkey hrow hst =>
    exact h.notedRecord (r := ⟨space, table, recordId, schemaVersion.getD 0, body, false, key⟩) hrow hst hkey
  | @delete t space table recordId key cur row _ hkey hrow hst =>
    exact h.notedRecord (r := ⟨space, table, recordId, cur.schemaVersion, .null, true, key⟩) hrow hst hkey
  | commitFails hc => exact h.commits hc
  | commit hc => exact (h.commits hc).unpend hc.footprint.2
  | @abort t row hrow hst =>
    have hfoot := Footprint.discarded w t row "explicit abort"
    refine h.settle (t := t) ⟨hfoot.rows, hfoot.writes, fun t' ht => ?_⟩ ((txnState_discarded ..).trans (if_pos rfl)) (by simp)
    rw [← hfoot.pending t' ht]
    simp [World.unpend, World.forget, ht]
  | abortFails hinactive => exact h.unpend hinactive

end Drafts

end Xtable
