import Xtable.Theorems.Scans
import Xtable.Theorems.SnapshotReads

/-! A query goes through the record rows, a point read through the memtables and chunks as well. Without schemas
    they give the same records; memtable entries have no schema version, so with one the point read reports version
    0. -/

namespace Xtable

open Coordinator

/-! ## What is known of every document -/

/-- Every document, pending or committed, has a property of its record, its schema version and its text. -/
structure World.Documents (env : Env) (Q : RecordKey → Nat → Bytes → Prop) (w : World) : Prop where
  pending : ∀ (t : String) p, w.pending[t]? = some p → ∀ d ∈ p.docs, Q d.rk d.schemaVersion (utf8 (env.jsonText d.body))
  rows : ∀ (rk : RecordKey) (v : Nat) r, w.store.recordVersions[(rk, v)]? = some r → Q rk r.entry.schemaVersion r.body
  latest : ∀ (rk : RecordKey) r, w.store.recordIndex[rk]? = some r → Q rk r.entry.schemaVersion (utf8 r.bodyJson)

namespace World.Documents

variable {env : Env} {c : Codecs} {Q : RecordKey → Nat → Bytes → Prop} {w w' : World}

theorem pendingOf {t : String} {d : Doc} (h : w.Documents env Q) (hd : d ∈ (w.pendingOf t).docs) :
    Q d.rk d.schemaVersion (utf8 (env.jsonText d.body)) := by
  cases hp : w.pending[t]? with
  | none => simp [World.pendingOf, hp, PendingTxn.docs] at hd
  | some p =>
    rw [World.pendingOf, hp] at hd
    exact h.pending t p hp d hd

theorem refiled (h : w.Documents env Q) (hfiled : Refiled w w') : w'.Documents env Q := by
  obtain ⟨p, hrows, hlatest⟩ := hfiled.rows
  refine ⟨fun t p hp => ?_, fun rk v r' hr' => ?_, fun rk r' hr' => ?_⟩
  · rw [hfiled.pending] at hp
    exact h.pending t p hp
  · rw [hrows] at hr'
    obtain ⟨r, hr, rfl⟩ := Option.map_eq_some_iff.1 hr'
    exact h.rows rk v r hr
  · rw [hlatest] at hr'
    obtain ⟨r, hr, rfl⟩ := Option.map_eq_some_iff.1 hr'
    exact h.latest rk r hr

theorem request {r : Request} (h : w.Documents env Q) (hs : Structured w) (hcatalog : CatalogStep env w w')
    (hstage : StagingStep env w r w') (hschema : ∀ rk n b, rk.2.1 = "_schema" → Q rk n b)
    (hnull : ∀ rk n b, Q rk n b → Q rk n (utf8 (env.jsonText .null)))
    (hupsert : ∀ t space table recordId schemaVersion body key, r = .upsertRecord t space table recordId schemaVersion body →
      recordKey space table recordId = .ok key → Q (space, table, recordId) (schemaVersion.getD 0) (utf8 (env.jsonText body))) :
    w'.Documents env Q := by
  refine ⟨?_, fun rk v r hr => ?_, fun rk r hr => ?_⟩
  · cases hstage with
    | shed hsheds => exact fun t p hp => h.pending t p (hsheds.pending t p hp)
    | @noted t row d body contentType userMeta p _ _ _ hdocs _ _ hfrom =>
      intro t' p' hp d' hd'
      simp only [Table.get_insert] at hp
      split at hp
      case isFalse => exact h.pending t' p' hp d' hd'
      case isTrue ht =>
        cases hp
        rcases hdocs d' hd' with hold | rfl
        · exact h.pendingOf hold
        · cases hfrom with
          | schema htable => exact hschema _ _ _ htable
          | upsert hkey => exact hupsert _ _ _ _ _ _ _ rfl hkey
          | delete hcur =>
            obtain ⟨row, hrow, rfl⟩ := Option.map_eq_some_iff.1 hcur
            exact hnull _ _ _ (h.latest _ row hrow)
  · rcases hcatalog.row_cases hs.drafts hr with hold | ⟨t, row, -, d, hd, rfl, -, rfl⟩
    · exact h.rows rk v r hold
    · exact h.pendingOf hd
  · rcases hcatalog.latest_cases hs.drafts hs.agrees hr with hold | ⟨t, row, -, d, hd, rfl, rfl⟩
    · exact h.latest rk r hold
    · exact h.pendingOf hd

theorem of_run {hist : List (World × NodeOp × World)} (hrun : Run (NodeOp.step env c) {} hist w)
    (hschema : ∀ rk n b, rk.2.1 = "_schema" → Q rk n b) (hnull : ∀ rk n b, Q rk n b → Q rk n (utf8 (env.jsonText .null)))
    (hwhole : ∀ x ∈ hist, x.2.1.whole = true)
    (hupsert : ∀ x ∈ hist, ∀ t space table recordId schemaVersion body key,
      x.2.1 = .request (.upsertRecord t space table recordId schemaVersion body) →
      recordKey space table recordId = .ok key → Q (space, table, recordId) (schemaVersion.getD 0) (utf8 (env.jsonText body))) :
    w.Documents env Q := by
  refine (hrun.invariant (I := fun w => Orderly w ∧ w.Documents env Q) (C := fun _ (op : NodeOp) => op.whole = true ∧
    ∀ t space table recordId schemaVersion body key, op = .request (.upsertRecord t space table recordId schemaVersion body) →
      recordKey space table recordId = .ok key → Q (space, table, recordId) (schemaVersion.getD 0) (utf8 (env.jsonText body)))
    ⟨.empty, fun t p hp => by simp at hp, fun rk v r hr => by simp at hr, fun rk r hr => by simp at hr⟩
    (fun u op v hu hop hstep => ?_) fun x hx => ⟨hwhole x hx, hupsert x hx⟩).1.2
  have hnode := NodeStep.of_step hop.1 hstep
  refine ⟨hu.1.step hnode, ?_⟩
  cases hnode with
  | request hr hstep =>
    obtain ⟨-, heffect, hcatalog, -⟩ := hu.1.structured.step hr hstep
    exact hu.2.request hu.1.structured hcatalog (.of_effect hu.1.structured.drafts hr heffect) hschema hnull
      fun t space table recordId schemaVersion body key heq => hop.2 t space table recordId schemaVersion body key (by rw [heq])
  | rotate => exact hu.2.refiled (.rotate u)
  | flush hflush => exact hu.2.refiled (.flush hflush)

end World.Documents

/-! ## Rows at a snapshot -/

/-- The newest version of a record up to a snapshot. -/
structure Store.Newest (s : Store) (rk : RecordKey) (snapshot v : Nat) (r : StoredRecordVersion) : Prop where
  row : s.recordVersions[(rk, v)]? = some r
  visible : v ≤ snapshot
  newest : ∀ u r', s.recordVersions[(rk, u)]? = some r' → u ≤ snapshot → u ≤ v

theorem Store.newest_or_none (s : Store) (rk : RecordKey) (snapshot : Nat) :
    (∃ v r, s.Newest rk snapshot v r) ∨ ∀ u r, s.recordVersions[(rk, u)]? = some r → snapshot < u := by
  classical
  by_cases hsome : ∃ u, u ≤ snapshot ∧ ∃ r, s.recordVersions[(rk, u)]? = some r
  · obtain ⟨u, hu, hrow⟩ := hsome
    let P : Nat → Prop := fun v => ∃ r, s.recordVersions[(rk, v)]? = some r
    obtain ⟨r, hr⟩ : P (Nat.findGreatest P snapshot) := Nat.findGreatest_spec hu hrow
    exact .inl ⟨_, r, hr, Nat.findGreatest_le snapshot, fun u r' hr' hu => Nat.le_findGreatest hu ⟨r', hr'⟩⟩
  · refine .inr fun u r hr => ?_
    by_contra hle
    exact hsome ⟨u, not_lt.1 hle, r, hr⟩

theorem Store.Newest.unique {s : Store} {rk : RecordKey} {snapshot v v' : Nat} {r r' : StoredRecordVersion}
    (h : s.Newest rk snapshot v r) (h' : s.Newest rk snapshot v' r') : v = v' ∧ r = r' := by
  obtain rfl : v = v' := le_antisymm (h'.newest v r h.row h.visible) (h.newest v' r' h'.row h'.visible)
  exact ⟨rfl, Option.some.inj (h.row.symm.trans h'.row)⟩

theorem Store.Agree.recordIndex_of_row {s : Store} {rk : RecordKey} {key : String} {v : Nat} {r : StoredRecordVersion}
    (h : s.Agree rk key) (hr : s.recordVersions[(rk, v)]? = some r) : ∃ latest, s.recordIndex[rk]? = some latest := by
  have hne : (s.readChain key).entries ≠ [] := by
    intro hnil
    have hrows := h.rows
    rw [hnil, List.map_nil, List.map_eq_nil_iff] at hrows
    have hmem := Store.mem_recordRows.2 hr
    rw [hrows] at hmem
    cases hmem
  obtain ⟨last, hlast⟩ := Option.isSome_iff_exists.1 (List.getLast?_isSome.2 hne)
  have hlatest := h.latest
  rw [hlast, Option.map_some] at hlatest
  obtain ⟨latest, hget, -⟩ := Option.map_eq_some_iff.1 hlatest
  exact ⟨latest, hget⟩

theorem mapM_ok {α β ε : Type} {f : α → Except ε β} {l : List α} (h : ∀ x ∈ l, ∃ y, f x = .ok y) :
    ∃ out, l.mapM f = .ok out ∧ ∀ y, y ∈ out ↔ ∃ x ∈ l, f x = .ok y := by
  induction l with
  | nil => exact ⟨[], rfl, by simp⟩
  | cons x rest ih =>
    obtain ⟨out, hout, hmem⟩ := ih fun y hy => h y (List.mem_cons_of_mem _ hy)
    obtain ⟨y, hy⟩ := h x List.mem_cons_self
    refine ⟨y :: out, by simp [List.mapM_cons, hy, hout, bind, Except.bind, pure, Except.pure], fun z => ?_⟩
    simp [hmem, hy, eq_comm]

/-! ## Records of a table -/

/-- A document of the table has no schema version, a key, and a body that can be read back. -/
def PlainDoc (e : SpaceEnv) (space table : String) (rk : RecordKey) (schemaVersion : Nat) (body : Bytes) : Prop :=
  rk.1 = space → rk.2.1 = table →
    schemaVersion = 0 ∧ e.Reads body ∧ ∃ key, recordKey rk.1 rk.2.1 rk.2.2 = .ok key

/-- The record that the rows show at a snapshot. -/
def Store.Shows (e : SpaceEnv) (s : Store) (space table : String) (snapshot : Nat) (rec : Record) : Prop :=
  ∃ v r body, s.Newest (space, table, rec.recordId) snapshot v r ∧ r.entry.deleted = false ∧ e.fromSlice r.body = .ok body ∧
    rec = ⟨space, table, rec.recordId, body, 0, v, false⟩

section Table

variable {e : SpaceEnv} {w : World} {space table : String} {txnSnapshot : Nat} {snapshot : Option Nat}

theorem storeIterWithBody_rows (snap : Nat) (hl : w.Layered e.codecs) (hkeyed : w.store.Keyed) (hagree : w.store.Agrees)
    (hdocs : w.Documents e.toEnv (PlainDoc e space table)) :
    ∃ rows, Space.storeIterWithBody e w.store space table snap = .ok rows ∧ ∀ rid idx body, (rid, idx, body) ∈ rows ↔
      ∃ v r, w.store.Newest (space, table, rid) snap v r ∧ idx = r.entry ∧ e.fromSlice r.body = .ok body := by
  -- what one row gives
  have hrow : ∀ rid idx v r, w.store.Newest (space, table, rid) snap v r → ∃ body, e.fromSlice r.body = .ok body ∧
      Space.rowWithBody e w.store space table snap (rid, idx) = .ok (some (rid, r.entry, body)) := by
    intro rid idx v r hnew
    obtain ⟨-, ⟨hne, body, hbody⟩, -⟩ := hdocs.rows _ v r hnew.row rfl rfl
    refine ⟨body, hbody, ?_⟩
    unfold Space.rowWithBody
    rw [Store.getRecordVersionAtSnapshot_eq_some hkeyed hnew.row hnew.visible hnew.newest]
    simp [hne, Space.parseRecord, hbody, bind, Except.bind, pure, Except.pure]
  have hnone : ∀ rid idx, (rid, idx) ∈ w.store.iterRecordIndex space table →
      (∀ u r, w.store.recordVersions[((space, table, rid), u)]? = some r → snap < u) →
      Space.rowWithBody e w.store space table snap (rid, idx) = .ok none := by
    intro rid idx hmem hlate
    obtain ⟨latest, hlatest, rfl⟩ := Option.map_eq_some_iff.1 (Store.mem_iterRecordIndex.1 hmem)
    obtain ⟨r, hr⟩ := hl.latest _ latest hlatest
    unfold Space.rowWithBody
    rw [Store.getRecordVersionAtSnapshot_eq_none hkeyed hlate]
    simp [hlate _ r hr]
  obtain ⟨out, hout, hmem⟩ := mapM_ok (l := w.store.iterRecordIndex space table)
    (f := Space.rowWithBody e w.store space table snap) fun x hx => by
      rcases w.store.newest_or_none (space, table, x.1) snap with ⟨v, r, hnew⟩ | hlate
      · obtain ⟨body, -, heq⟩ := hrow x.1 x.2 v r hnew
        exact ⟨_, heq⟩
      · exact ⟨_, hnone x.1 x.2 hx hlate⟩
  refine ⟨out.filterMap id, by simp [Space.storeIterWithBody, hout, bind, Except.bind, pure, Except.pure], fun rid idx body => ?_⟩
  have hiff : (rid, idx, body) ∈ out.filterMap id ↔ some (rid, idx, body) ∈ out := by simp
  rw [hiff, hmem]
  constructor
  · rintro ⟨⟨rid', idx'⟩, hx, heq⟩
    rcases w.store.newest_or_none (space, table, rid') snap with ⟨v, r, hnew⟩ | hlate
    · obtain ⟨body', hbody, heq'⟩ := hrow rid' idx' v r hnew
      obtain ⟨rfl, rfl, rfl⟩ : rid' = rid ∧ r.entry = idx ∧ body' = body := by simpa [heq'] using heq
      exact ⟨v, r, hnew, rfl, hbody⟩
    · rw [hnone rid' idx' hx hlate] at heq
      cases heq
  · rintro ⟨v, r, hnew, rfl, hbody⟩
    obtain ⟨-, -, key, hkey⟩ := hdocs.rows _ v r hnew.row rfl rfl
    obtain ⟨latest, hlatest⟩ := (hagree _ key (.record hkey)).recordIndex_of_row hnew.row
    obtain ⟨body', hbody', heq⟩ := hrow rid latest.entry v r hnew
    cases hbody.symm.trans hbody'
    exact ⟨(rid, latest.entry), Store.mem_iterRecordIndex.2 (by simp [Store.getRecordIndex, hlatest]), heq⟩

theorem queriedRecords_ok {rows : List (String × RecordIndexEntry × Value)}
    (hkeys : ∀ row ∈ rows, ∃ key, recordKey space table row.1 = .ok key) :
    ∃ records, (Space.queriedRecords space table {} rows).1 = .ok records ∧ ∀ rec, rec ∈ records ↔
      ∃ row ∈ rows, row.2.1.deleted = false ∧
        rec = ⟨space, table, row.1, row.2.2, row.2.1.schemaVersion, row.2.1.commitVersion, false⟩ := by
  induction rows with
  | nil => exact ⟨[], rfl, by simp⟩
  | cons row rows ih =>
    obtain ⟨rid, idx, body⟩ := row
    obtain ⟨records, hrecords, hmem⟩ := ih fun row hrow => hkeys row (List.mem_cons_of_mem _ hrow)
    obtain ⟨key, hkey⟩ := hkeys (rid, idx, body) List.mem_cons_self
    by_cases hdeleted : idx.deleted = true
    · refine ⟨records, by simp [Space.queriedRecords, hkey, hrecords, hdeleted, Except.map], fun rec => ?_⟩
      simp [hmem, hdeleted]
    · refine ⟨⟨space, table, rid, body, idx.schemaVersion, idx.commitVersion, false⟩ :: records,
        by simp [Space.queriedRecords, hkey, hrecords, hdeleted, Except.map], fun rec => ?_⟩
      simp [hmem, hdeleted]

theorem Query.run_empty (slice : SortBy) (records : List Record) :
    Query.run slice {} records = some (records.filter fun r => !r.deleted) := by
  have hselects : Query.selects {} = fun r => !r.deleted := by
    funext r
    simp [Query.selects]
  simp [Query.run, Query.page, Query.sorted, hselects]

theorem queryRecords_shows (hl : w.Layered e.codecs) (hkeyed : w.store.Keyed) (hagree : w.store.Agrees)
    (hdocs : w.Documents e.toEnv (PlainDoc e space table)) :
    ∃ result, (Space.queryRecords e w txnSnapshot space table {} snapshot).1 = .ok result ∧
      ∀ rec, rec ∈ result.records ↔ w.store.Shows e space table (snapshot.getD txnSnapshot) rec := by
  obtain ⟨rows, hrows, hmem⟩ := storeIterWithBody_rows (snapshot.getD txnSnapshot) hl hkeyed hagree hdocs
  have hkeys : ∀ row ∈ rows, ∃ key, recordKey space table row.1 = .ok key := by
    rintro ⟨rid, idx, body⟩ hrow
    obtain ⟨v, r, hnew, -⟩ := (hmem rid idx body).1 hrow
    exact (hdocs.rows _ v r hnew.row rfl rfl).2.2
  obtain ⟨records, hrecords, hmem'⟩ := queriedRecords_ok hkeys
  refine ⟨⟨snapshot.getD txnSnapshot, records.filter fun r => !r.deleted, records.length⟩,
    by simp only [Space.queryRecords, hrows, hrecords, Except.bind, Query.run_empty], fun rec => ?_⟩
  simp only [List.mem_filter, hmem', Bool.not_eq_true']
  constructor
  · rintro ⟨⟨⟨rid, idx, body⟩, hrow, hlive, rfl⟩, -⟩
    obtain ⟨v, r, hnew, rfl, hbody⟩ := (hmem rid idx body).1 hrow
    refine ⟨v, r, body, hnew, hlive, hbody, ?_⟩
    simp only [(hdocs.rows _ v r hnew.row rfl rfl).1, hkeyed _ v r hnew.row]
  · rintro ⟨v, r, body, hnew, hlive, hbody, heq⟩
    refine ⟨⟨(rec.recordId, r.entry, body), (hmem _ _ _).2 ⟨v, r, hnew, rfl, hbody⟩, hlive, ?_⟩, by rw [heq]⟩
    rw [heq]
    simp only [(hdocs.rows _ v r hnew.row rfl rfl).1, hkeyed _ v r hnew.row]

theorem getRecord_shows (hl : w.Layered e.codecs) (hkeyed : w.store.Keyed)
    (hdocs : w.Documents e.toEnv (PlainDoc e space table)) (rid : String) (rec : Record) :
    (Space.getRecord e w txnSnapshot space table rid snapshot).1 = .ok (some rec) ↔
      rec.recordId = rid ∧ w.store.Shows e space table (snapshot.getD txnSnapshot) rec := by
  have hbucket : (⟨w.bucket, e.etag, e.notFound⟩ : Backend).objects = w.bucket := rfl
  unfold Space.getRecord
  rcases w.store.newest_or_none (space, table, rid) (snapshot.getD txnSnapshot) with ⟨v, r, hnew⟩ | hlate
  · obtain ⟨a, ha, hanswers⟩ := hl.read_answers hkeyed hbucket hnew.row hnew.visible hnew.newest
    obtain ⟨hzero, ⟨-, body, hbody⟩, key, hkey⟩ := hdocs.rows _ v r hnew.row rfl rfl
    have hschema : a.schemaVersion = 0 := hanswers.schemaVersion.elim id fun h => h.trans hzero
    simp only [ha, hanswers.deleted, hkey]
    by_cases hdeleted : r.entry.deleted = true
    · rw [if_pos hdeleted]
      refine ⟨nofun, ?_⟩
      rintro ⟨rfl, v', r', -, hnew', hlive, -⟩
      obtain ⟨-, rfl⟩ := hnew.unique hnew'
      rw [hdeleted] at hlive
      cases hlive
    · rw [if_neg hdeleted]
      have hlive : r.entry.deleted = false := by simpa using hdeleted
      simp only [Space.parseRecord, hanswers.body hlive, hbody, Except.map, hschema, hanswers.version, Except.ok.injEq,
        Option.some.injEq]
      constructor
      · rintro rfl
        exact ⟨rfl, v, r, body, hnew, hlive, hbody, rfl⟩
      · rintro ⟨rfl, v', r', body', hnew', -, hbody', heq⟩
        obtain ⟨rfl, rfl⟩ := hnew.unique hnew'
        cases hbody.symm.trans hbody'
        exact heq.symm
  · simp only [hl.read_none hkeyed hlate]
    refine ⟨nofun, ?_⟩
    rintro ⟨rfl, v, r, -, hnew, -⟩
    exact absurd (hlate v r hnew.row) (not_lt.2 hnew.visible)

end Table

/-! ## Runs -/

/-- An upsert to the table comes without a schema version, and its body can be read back. -/
def NodeOp.Schemaless (e : SpaceEnv) (space table : String) : NodeOp → Prop
  | request (.upsertRecord _ space' table' _ schemaVersion body) =>
    space' = space → table' = table → schemaVersion.getD 0 = 0 ∧ e.Reads (utf8 (e.jsonText body))
  | _ => True

theorem World.Documents.schemaless {e : SpaceEnv} {w : World} {hist : List (World × NodeOp × World)} {space table : String}
    (hnull : e.Reads (utf8 (e.jsonText .null))) (hrun : Run (NodeOp.step e.toEnv e.codecs) {} hist w)
    (htable : table ≠ "_schema") (hwhole : ∀ x ∈ hist, x.2.1.whole = true)
    (hcond : ∀ x ∈ hist, x.2.1.Schemaless e space table) : w.Documents e.toEnv (PlainDoc e space table) := by
  refine .of_run hrun (fun rk n b hrk _ hsame => ?_) (fun rk n b h hspace hsame => ?_) hwhole
    fun x hx t space' table' rid schemaVersion body key hop hkey hspace hsame => ?_
  · exact absurd (hsame.symm.trans hrk) htable
  · obtain ⟨hzero, -, hkey⟩ := h hspace hsame
    exact ⟨hzero, hnull, hkey⟩
  · have hplain := hcond x hx
    rw [hop] at hplain
    obtain ⟨hzero, hreads⟩ := hplain hspace hsame
    exact ⟨hzero, hreads, key, hkey⟩

/-- On a table whose upserts all come without a schema version, a query without filter, order and limit answers exactly
the records that point reads at its snapshot answer, in every state reached by a run whose steps keep the layers in order. -/
theorem queries_match_point_reads (e : SpaceEnv)
    (hzstd : ∀ body compressed, e.codecs.zstdEncode body = .ok compressed → e.codecs.zstdDecode compressed = .ok body)
    (hjson : ∀ x, utf8 (e.jsonText x) ≠ []) (hnull : e.Reads (utf8 (e.jsonText .null)))
    {hist : List (World × NodeOp × World)} {w : World} (hrun : Run (NodeOp.step e.toEnv e.codecs) {} hist w)
    (space table : String) (htable : table ≠ "_schema")
    (hcond : ∀ x ∈ hist, x.2.1.Layers e.toEnv e.codecs x.1 ∧ x.2.1.Schemaless e space table) (txnSnapshot : Nat) (snapshot : Option Nat) :
    ∃ result, (Space.queryRecords e w txnSnapshot space table {} snapshot).1 = .ok result ∧ ∀ rid rec,
      (Space.getRecord e w txnSnapshot space table rid snapshot).1 = .ok (some rec) ↔ rec.recordId = rid ∧ rec ∈ result.records := by
  obtain ⟨horderly, -, hlayered⟩ := World.Layered.of_run hzstd hjson hrun fun x hx => (hcond x hx).1
  have hkeyed := horderly.structured.keyed
  have hdocs := World.Documents.schemaless hnull hrun htable (fun x hx => (hcond x hx).1.whole) fun x hx => (hcond x hx).2
  obtain ⟨result, hresult, hmem⟩ := queryRecords_shows hlayered hkeyed horderly.structured.agrees hdocs
  refine ⟨result, hresult, fun rid rec => ?_⟩
  rw [getRecord_shows hlayered hkeyed hdocs, hmem]

theorem SpaceEnv.stored_reads (x : Value) : SpaceEnv.stored.Reads (utf8 (SpaceEnv.stored.jsonText x)) := by
  have hall : ∀ text, ∃ v, SpaceEnv.stored.fromSlice text = .ok v := by
    intro text
    simp only [SpaceEnv.stored, SpaceEnv.sample]
    split
    · exact ⟨_, rfl⟩
    · split <;> exact ⟨_, rfl⟩
  exact ⟨SpaceEnv.stored_jsonText x, hall _⟩

def NodeOp.unversioned : NodeOp → Bool
  | request (.upsertRecord _ _ _ _ schemaVersion _) => schemaVersion.getD 0 = 0
  | _ => true

theorem NodeOp.unversioned_schemaless {op : NodeOp} (h : op.unversioned = true) (space table : String) :
    op.Schemaless .stored space table := by
  unfold NodeOp.Schemaless
  split
  · exact fun _ _ => ⟨of_decide_eq_true h, SpaceEnv.stored_reads _⟩
  · exact True.intro

def World.versionsAt (w : World) (snapshot : Nat) : Except Fault (List (Nat × Nat)) × Except Fault (Option (Nat × Nat)) :=
  ((Space.queryRecords .stored w 0 "s" "t" {} (some snapshot)).1.map fun q => q.records.map fun r => (r.schemaVersion, r.commitVersion),
    (Space.getRecord .stored w 0 "s" "t" "r" (some snapshot)).1.map fun r => r.map fun r => (r.schemaVersion, r.commitVersion))

theorem World.versionsAt_point {w : World} {snapshot : Nat} {out : Except Fault (List (Nat × Nat))} {x : Nat × Nat}
    (h : w.versionsAt snapshot = (out, .ok (some x))) : ∃ rec,
      (Space.getRecord .stored w 0 "s" "t" "r" (some snapshot)).1 = .ok (some rec) ∧ (rec.schemaVersion, rec.commitVersion) = x := by
  have hpoint := congrArg Prod.snd h
  simp only [World.versionsAt] at hpoint
  revert hpoint
  cases (Space.getRecord .stored w 0 "s" "t" "r" (some snapshot)).1 with
  | error => exact nofun
  | ok rec =>
    cases rec with
    | none => exact nofun
    | some rec => exact fun hpoint => ⟨rec, rfl, Option.some.inj (Except.ok.inj hpoint)⟩

theorem queries_match_point_reads_flushed : ∃ hist w result rec, Run (NodeOp.step .stored .stored) {} hist w ∧
    (∀ x ∈ hist, x.2.1.Layers .stored .stored x.1 ∧ x.2.1.Schemaless .stored "s" "t") ∧
    (Space.queryRecords .stored w 0 "s" "t" {} (some 1)).1 = .ok result ∧
    (Space.getRecord .stored w 0 "s" "t" "r" (some 1)).1 = .ok (some rec) ∧ rec.commitVersion = 1 ∧ rec ∈ result.records := by
  obtain ⟨w, hguarded, htest⟩ := Run.exists_of_exec
    (guarded (fun w op => NodeOp.plain [nullEntry 1] w op && op.eachPut MemTableSet.clear w && op.unversioned)
      (NodeOp.step .stored .stored)) {}
    (overwriteOps [.flush "c" 0 [nullEntry 1]] ++ [.request (.commitTxn "U" fun _ => false)])
    (fun w => w.versionsAt 1 = (.ok [(0, 1)], .ok (some (0, 1)))) (by decide +kernel)
  obtain ⟨hrun, hguard⟩ := hguarded.of_guarded
  generalize history _ _ _ = hist at hrun hguard
  have hcond : ∀ x ∈ hist, x.2.1.Layers .stored .stored x.1 ∧ x.2.1.Schemaless .stored "s" "t" := by
    intro x hx
    have hx := hguard x hx
    simp only [Bool.and_eq_true] at hx
    exact ⟨NodeOp.layers_of_plain (nullEntry_fits (.inl rfl)) hx.1.1 hx.1.2, NodeOp.unversioned_schemaless hx.2 "s" "t"⟩
  obtain ⟨rec, hrec, hversions⟩ := World.versionsAt_point (of_decide_eq_true htest)
  obtain ⟨result, hresult, hmatch⟩ := queries_match_point_reads .stored Codecs.stored_lossless.zstd
    SpaceEnv.stored_jsonText (SpaceEnv.stored_reads .null) hrun "s" "t" (by decide) hcond 0 (some 1)
  exact ⟨_, w, result, rec, hrun, hcond, hresult, hrec, congrArg Prod.snd hversions, ((hmatch "r" rec).1 hrec).2⟩

def bindOps : List NodeOp :=
  [.request (.call (.begin "T" none 0)), .request (.bindTableSchema "T" "s" "t" .stringSchema),
    .request (.commitTxn "T" fun _ => false), .request (.call (.begin "U" none 0))]

/-- A record of a table with a schema: the query reports the schema version that the upsert was checked against, the
point read reports 0. -/
theorem queries_miss_point_reads : ∃ hist w result point rec, Run (NodeOp.step .stored .stored) {} hist w ∧
    (∀ x ∈ hist, x.2.1.Layers .stored .stored x.1) ∧
    (∀ x ∈ hist, ∀ t space table rid sv body, x.2.1 = .request (.upsertRecord t space table rid sv body) →
      Space.checkSchema .stored x.1 t 1 ⟨space, table, some rid, body⟩ = .ok sv) ∧
    (Space.queryRecords .stored w 0 "s" "t" {} (some 2)).1 = .ok result ∧
    (Space.getRecord .stored w 0 "s" "t" "r" (some 2)).1 = .ok (some point) ∧ result.records = [rec] ∧
    rec.commitVersion = 2 ∧ point.commitVersion = 2 ∧ rec.schemaVersion = 1 ∧ point.schemaVersion = 0 := by
  obtain ⟨w, hguarded, htest⟩ := Run.exists_of_exec
    (guarded (fun w op => NodeOp.plain [nullEntry 1] w op && op.eachPut MemTableSet.clear w && (match op with
        | .request (.upsertRecord t space table rid sv body) =>
          Space.checkSchema .stored w t 1 ⟨space, table, some rid, body⟩ = .ok sv
        | _ => true)) (NodeOp.step .stored .stored)) {}
    (bindOps ++ [.request (.upsertRecord "U" "s" "t" "r" (some 1) (.string "a")), .request (.commitTxn "U" fun _ => false)])
    (fun w => w.versionsAt 2 = (.ok [(1, 2)], .ok (some (0, 2)))) (by decide +kernel)
  obtain ⟨hrun, hguard⟩ := hguarded.of_guarded
  have htest := of_decide_eq_true htest
  obtain ⟨point, hpoint, hversions⟩ := World.versionsAt_point htest
  have hquery : ∃ result rec, (Space.queryRecords .stored w 0 "s" "t" {} (some 2)).1 = .ok result ∧ result.records = [rec] ∧
      (rec.schemaVersion, rec.commitVersion) = (1, 2) := by
    have hquery := congrArg Prod.fst htest
    simp only [World.versionsAt] at hquery
    revert hquery
    cases (Space.queryRecords .stored w 0 "s" "t" {} (some 2)).1 with
    | error => exact nofun
    | ok result =>
      intro hquery
      obtain ⟨rec, hrec, heq⟩ := List.map_eq_singleton_iff.1 (Except.ok.inj hquery)
      exact ⟨result, rec, rfl, hrec, heq⟩
  obtain ⟨result, rec, hresult, hrecords, hrec⟩ := hquery
  refine ⟨_, w, result, point, rec, hrun, fun x hx => ?_, fun x hx t space table rid sv body hop => ?_, hresult, hpoint, hrecords,
    congrArg Prod.snd hrec, congrArg Prod.snd hversions, congrArg Prod.fst hrec, congrArg Prod.fst hversions⟩
  · have hx := hguard x hx
    simp only [Bool.and_eq_true] at hx
    exact NodeOp.layers_of_plain (nullEntry_fits (.inl rfl)) hx.1.1 hx.1.2
  · have hx := hguard x hx
    simp only [Bool.and_eq_true, hop, decide_eq_true_eq] at hx
    exact hx.2

end Xtable
