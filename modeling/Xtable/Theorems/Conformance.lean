import Xtable.Theorems.SchemaVersions

/-! An upsert checks its body against the schema that its transaction has staged last for the table, or else the
    latest one at its snapshot, and notes its version. Schema documents do not change once committed, so the stored
    body still conforms to the stored document. -/

namespace Xtable

open Coordinator

variable {e : SpaceEnv} {w w' : World} {t space name table key : String} {row : TxnStateRecord}

/-- A text that `serde_json` reads back as the value it was written from. -/
def SpaceEnv.RoundTrips (e : SpaceEnv) (body : Value) : Prop :=
  utf8 (e.jsonText body) ≠ [] ∧ e.fromSlice (utf8 (e.jsonText body)) = .ok body

theorem SpaceEnv.RoundTrips.reads {body : Value} (h : e.RoundTrips body) : e.Reads (utf8 (e.jsonText body)) :=
  ⟨h.1, body, h.2⟩

/-- The committed document of a version, as the historical rows have it. -/
def World.CommittedSchema (e : SpaceEnv) (w : World) (space name : String) (i : Nat) (schema : Value) : Prop :=
  ∃ key c r, schemaKey space name i = .ok key ∧ c ∈ (w.store.readChain key).entries ∧
    w.store.recordVersions[((space, "_schema", schemaId name i), c.commitVersion)]? = some r ∧ e.fromSlice r.body = .ok schema

theorem World.CommittedSchema.step {i : Nat} {schema : Value} (h : w.CommittedSchema e space name i schema)
    (hw : Cataloged e w) (hw' : Cataloged e w') (hstep : CatalogStep e.toEnv w w') :
    w'.CommittedSchema e space name i schema := by
  obtain ⟨key, c, r, hkey, hc, hr, hparse⟩ := h
  have hsame := hw.sameDocument_step hw' hstep hkey hc
  exact ⟨key, c, r, hkey, hsame.chain ▸ hc, (hsame.row _).trans hr, hparse⟩

/-- A pending record conforms to a schema of its version: one that is pending with it, or a committed one. -/
def World.Passed (e : SpaceEnv) (w : World) (p : PendingTxn) (r : PendingRecord) : Prop :=
  (∃ q ∈ p.schemas, q.space = r.space ∧ q.name = "_table::" ++ r.table ∧ q.version = r.schemaVersion ∧
    e.validator.validate q.body r.body = .ok ()) ∨
  ∃ schema, w.CommittedSchema e r.space ("_table::" ++ r.table) r.schemaVersion schema ∧
    e.validator.validate schema r.body = .ok ()

/-- A stored row conforms to the committed schema of its version. -/
def World.Conforming (e : SpaceEnv) (w : World) (space table : String) (r : StoredRecordVersion) : Prop :=
  ∃ schema body, w.CommittedSchema e space ("_table::" ++ table) r.entry.schemaVersion schema ∧ e.fromSlice r.body = .ok body ∧
    e.validator.validate schema body = .ok ()

structure Conformance (e : SpaceEnv) (w : World) : Prop where
  cataloged : Cataloged e w
  rows : ∀ (space table id : String) (v : Nat) r, w.store.recordVersions[((space, table, id), v)]? = some r →
    r.entry.deleted = false → table ≠ "_schema" → 0 < r.entry.schemaVersion → w.Conforming e space table r
  schemas : ∀ t row, w.store.getTxnState t = some row → row.status = .active → ∀ q ∈ (w.pendingOf t).schemas, e.RoundTrips q.body
  records : ∀ t row, w.store.getTxnState t = some row → row.status = .active → ∀ r ∈ (w.pendingOf t).records,
    r.deleted = false → e.RoundTrips r.body ∧ (0 < r.schemaVersion → w.Passed e (w.pendingOf t) r)

/-! ## The check of an upsert -/

theorem pendingSchema_mem {q : PendingSchema} (h : Space.pendingSchema w t space name = some q) :
    q ∈ (w.pendingOf t).schemas ∧ q.space = space ∧ q.name = name := by
  have hmem := List.mem_reverse.1 (List.mem_of_find?_eq_some h)
  have hwhere := List.find?_some h
  exact ⟨hmem, by simpa using hwhere⟩

theorem Cataloged.tableSchemaBody_committed {i snapshot : Nat} (h : Cataloged e w)
    (hnone : Space.pendingSchema w t space ("_table::" ++ table) = none)
    (hat : w.store.SchemaAt space ("_table::" ++ table) i snapshot) :
    ∃ schema, w.CommittedSchema e space ("_table::" ++ table) i schema ∧
      Space.tableSchemaBody e w t space table i snapshot = .ok (some schema) := by
  obtain ⟨key, c, hkey, hc, hle⟩ := hat
  obtain ⟨-, -, r, hr, hlive, honly⟩ := h.registry.single h.structured hkey hc
  obtain ⟨hne, schema, hparse⟩ := h.shelved.rows _ _ r hr hlive
  refine ⟨schema, ⟨key, c, r, hkey, hc, hr, hparse⟩, ?_⟩
  have hid : Space.schemaRecordId ("_table::" ++ table) i = schemaId ("_table::" ++ table) i := rfl
  simp only [Space.tableSchemaBody, hnone, hid]
  rw [Store.getRecordVersionAtSnapshot_eq_some h.structured.keyed hr hle fun u r' hr' _ => (honly u r' hr').le]
  simp [hne, Space.parseBody, hparse, Except.map]

theorem checkSchema_ok {snapshot sv i : Nat} {write : RecordWrite} {schema : Value}
    (hcheck : Space.checkSchema e w t snapshot write = .ok (some sv))
    (hresolve : Space.resolveTableSchemaVersion w t write.space write.table snapshot = some i)
    (hschema : Space.tableSchema e w t write.space write.table i snapshot = .ok schema) :
    i = sv ∧ e.validator.validate schema write.body = .ok () := by
  unfold Space.checkSchema at hcheck
  simp only [hresolve, hschema, bind, Except.bind] at hcheck
  cases hvalid : e.validator.validate schema write.body with
  | error x => simp [hvalid, throw, throwThe, MonadExceptOf.throw] at hcheck
  | ok _ =>
    rw [hvalid] at hcheck
    exact ⟨Option.some.inj (Except.ok.inj hcheck), rfl⟩

theorem Cataloged.passed_of_checkSchema {snapshot sv : Nat} {write : RecordWrite} (h : Cataloged e w)
    (htable : '/' ∉ write.table.toList) (hcheck : Space.checkSchema e w t snapshot write = .ok (some sv))
    (id key : String) : w.Passed e (w.pendingOf t) ⟨write.space, write.table, id, sv, write.body, false, key⟩ := by
  cases hpending : Space.pendingSchema w t write.space ("_table::" ++ write.table) with
  | some q =>
    obtain ⟨hq, hspace, hqname⟩ := pendingSchema_mem hpending
    have hschema : Space.tableSchema e w t write.space write.table q.version snapshot = .ok q.body := by
      simp [Space.tableSchema, Space.tableSchemaBody, hpending, bind, Except.bind, pure, Except.pure]
    obtain ⟨hsv, hvalid⟩ := checkSchema_ok hcheck (by simp [Space.resolveTableSchemaVersion, hpending]) hschema
    exact .inl ⟨q, hq, hspace, hqname, hsv, hvalid⟩
  | none =>
    have hname : '/' ∉ ("_table::" ++ write.table).toList := by simp [htable]
    have hresolve : Space.resolveTableSchemaVersion w t write.space write.table snapshot =
        Space.latestSchemaVersionAtSnapshot w.store write.space ("_table::" ++ write.table) snapshot := by
      simp [Space.resolveTableSchemaVersion, hpending]
    cases hlatest : Space.latestSchemaVersionAtSnapshot w.store write.space ("_table::" ++ write.table) snapshot with
    | none =>
      simp only [Space.checkSchema, hresolve, hlatest] at hcheck
      cases Except.ok.inj hcheck
    | some i =>
      obtain ⟨schema, hcommitted, hbody⟩ := h.tableSchemaBody_committed hpending
        (h.registry.schemaAt_of_latest h.structured h.shelved hname hlatest)
      have hschema : Space.tableSchema e w t write.space write.table i snapshot = .ok schema := by
        simp [Space.tableSchema, hbody, bind, Except.bind, pure, Except.pure]
      obtain ⟨rfl, hvalid⟩ := checkSchema_ok hcheck (hresolve.trans hlatest) hschema
      exact .inr ⟨schema, hcommitted, hvalid⟩

/-! ## Publications -/

theorem Registry.pendingSchema_unique {q q' : PendingSchema} (hreg : Registry w) (hrow : w.store.getTxnState t = some row)
    (hst : row.status = .active) (hq : q ∈ (w.pendingOf t).schemas) (hq' : q' ∈ (w.pendingOf t).schemas)
    (hspace : q'.space = q.space) (hname : q'.name = q.name) (hversion : q'.version = q.version) : q' = q := by
  obtain ⟨a, k, hrange, -⟩ := hreg.staged t row hrow hst q.space q.name
  have hnodup : ((w.pendingOf t).versionsOf q.space q.name).Nodup := by
    rw [hrange]
    exact List.nodup_range'
  exact List.inj_on_of_nodup_map hnodup (List.mem_filter.2 ⟨hq', by simp [hspace, hname]⟩)
    (List.mem_filter.2 ⟨hq, by simp⟩) hversion

theorem Cataloged.committedSchema_of_publication {q : PendingSchema} (h : Cataloged e w)
    (hpub : Publication e.toEnv w t row w') (hq : q ∈ (w.pendingOf t).schemas) (hbody : e.RoundTrips q.body) :
    w'.CommittedSchema e q.space q.name q.version q.body := by
  have hdraft := h.structured.drafts.active t row hpub.found hpub.active
  have hkey := hdraft.keyed.schemas q hq
  have hstaged := (hdraft.keyed.docAt_schema hkey).2 (PendingTxn.mem_versionsOf.2 ⟨q, hq, rfl, rfl, rfl⟩)
  obtain ⟨d, hd⟩ := Option.ne_none_iff_exists'.1 hstaged
  obtain ⟨q', hq', rfl, hspace, hname, hversion⟩ := hdraft.keyed.docAt_of_schema hkey hd
  obtain rfl := h.registry.pendingSchema_unique hpub.found hpub.active hq hq' hspace hname hversion
  refine ⟨q'.backendKey, chainEntry t (w.store.iterWriteSet t) q'.backendKey (w.nextVersion row),
    q'.doc.row e.toEnv (commitEvent t row (w.store.iterWriteSet t) (w.nextVersion row)), hkey, ?_, ?_, hbody.2⟩
  · rw [hpub.chains, if_pos ((hdraft.keys _).2 hstaged)]
    simp
  · rw [chainEntry_commitVersion]
    exact hpub.version_row hdraft hd

theorem Conformance.of_publication {r : PendingRecord} (h : Conformance e w) (h' : Cataloged e w')
    (hpub : Publication e.toEnv w t row w') (hr : r ∈ (w.pendingOf t).records) (hlive : r.deleted = false)
    (hsv : 0 < r.schemaVersion) {ev : CommitEvent} : w'.Conforming e r.space r.table (r.doc.row e.toEnv ev) := by
  obtain ⟨hbody, hpassed⟩ := h.records t row hpub.found hpub.active r hr hlive
  rcases hpassed hsv with ⟨q, hq, hspace, hname, hversion, hvalid⟩ | ⟨schema, hcommitted, hvalid⟩
  · have hschema := h.cataloged.committedSchema_of_publication hpub hq (h.schemas t row hpub.found hpub.active q hq)
    rw [hspace, hname, hversion] at hschema
    exact ⟨q.body, r.body, hschema, hbody.2, hvalid⟩
  · exact ⟨schema, r.body, hcommitted.step h.cataloged h' (.published hpub), hbody.2, hvalid⟩

/-! ## Steps -/

theorem Conformance.rows_step (h : Conformance e w) (h' : Cataloged e w') (hstep : CatalogStep e.toEnv w w')
    {id : String} {v : Nat} {r : StoredRecordVersion} (hr : w'.store.recordVersions[((space, table, id), v)]? = some r)
    (hlive : r.entry.deleted = false) (huser : table ≠ "_schema") (hsv : 0 < r.entry.schemaVersion) :
    w'.Conforming e space table r := by
  rcases hstep.row_cases h.cataloged.structured.drafts hr with hold | ⟨t, row, hpub, d, hd, hrk, -, rfl⟩
  · obtain ⟨schema, body, hcommitted, hparse, hvalid⟩ := h.rows space table id v r hold hlive huser hsv
    exact ⟨schema, body, hcommitted.step h.cataloged h' hstep, hparse, hvalid⟩
  · rcases List.mem_append.1 hd with hd | hd
    · obtain ⟨p, hp, rfl⟩ := List.mem_map.1 hd
      obtain ⟨rfl, hrest⟩ := Prod.mk.inj hrk
      obtain ⟨rfl, -⟩ := Prod.mk.inj hrest
      exact h.of_publication h' hpub hp hlive hsv
    · obtain ⟨q, hq, rfl⟩ := List.mem_map.1 hd
      obtain ⟨-, hrest⟩ := Prod.mk.inj hrk
      exact absurd (Prod.mk.inj hrest).1.symm huser

theorem World.Passed.step {p p' : PendingTxn} {r : PendingRecord} (h : w.Passed e p r) (hw : Cataloged e w)
    (hw' : Cataloged e w') (hstep : CatalogStep e.toEnv w w') (hschemas : p.schemas ⊆ p'.schemas) : w'.Passed e p' r := by
  rcases h with ⟨q, hq, hvalid⟩ | ⟨schema, hcommitted, hvalid⟩
  · exact .inl ⟨q, hschemas hq, hvalid⟩
  · exact .inr ⟨schema, hcommitted.step hw hw' hstep, hvalid⟩

theorem Conformance.request {r : Request} (h : Conformance e w) (hr : r.structured = true)
    (hstep : r.step e.toEnv w = some w') (hleft : r.numbers w = true)
    (hbody : ∀ body, r.written = some body → e.RoundTrips body)
    (hupsert : ∀ t space table id sv body key, r = .upsertRecord t space table id sv body →
      recordKey space table id = .ok key → 0 < sv.getD 0 →
      w.Passed e (w.pendingOf t) ⟨space, table, id, sv.getD 0, body, false, key⟩) : Conformance e w' := by
  obtain ⟨h', hcatalog, hrows⟩ := h.cataloged.request hr hstep hleft fun body hb => (hbody body hb).reads
  have hold : ∀ t row, w.store.getTxnState t = some row → row.status = .active → ∀ p',
      (w.pendingOf t).schemas ⊆ p'.schemas → ∀ x ∈ (w.pendingOf t).records, x.deleted = false →
      e.RoundTrips x.body ∧ (0 < x.schemaVersion → w'.Passed e p' x) := by
    intro t row hrow hst p' hp' x hx hlive
    obtain ⟨hx', hpassed⟩ := h.records t row hrow hst x hx hlive
    exact ⟨hx', fun hsv => (hpassed hsv).step h.cataloged h' hcatalog hp'⟩
  refine ⟨h', fun space table id v x hx hlive huser hsv => h.rows_step h' hcatalog hx hlive huser hsv,
    fun t row' hrow' hst' => ?_, fun t row' hrow' hst' => ?_⟩
  · intro q hq
    cases hrows.pending t row' hrow' hst' with
    | begun hpending =>
      rw [hpending] at hq
      cases hq
    | kept hrow hst _ hpending | upsert hrow hst _ _ hpending | delete hrow hst _ _ hpending =>
      rw [hpending] at hq
      exact h.schemas t _ hrow hst q hq
    | schema hrow hst _ hreq _ _ hpending =>
      rw [hpending] at hq
      rcases List.mem_append.1 hq with hq | hq
      · exact h.schemas t _ hrow hst q hq
      · rw [List.mem_singleton.1 hq]
        rcases hreq with rfl | ⟨table, -, rfl⟩ <;> exact hbody _ rfl
  · intro x hx hlive
    cases hrows.pending t row' hrow' hst' with
    | begun hpending =>
      rw [hpending] at hx
      cases hx
    | kept hrow hst _ hpending =>
      rw [hpending] at hx ⊢
      exact hold t _ hrow hst _ (List.Subset.refl _) x hx hlive
    | schema hrow hst _ _ _ _ hpending =>
      rw [hpending] at hx ⊢
      exact hold t _ hrow hst _ (List.subset_append_left ..) x hx hlive
    | delete hrow hst _ _ hpending =>
      rw [hpending] at hx ⊢
      rcases List.mem_append.1 hx with hx | hx
      · exact hold t _ hrow hst _ (List.Subset.refl _) x hx hlive
      · rw [List.mem_singleton.1 hx] at hlive
        cases hlive
    | upsert hrow hst _ hkey hpending =>
      rw [hpending] at hx ⊢
      rcases List.mem_append.1 hx with hx | hx
      · exact hold t _ hrow hst _ (List.Subset.refl _) x hx hlive
      · obtain rfl := List.mem_singleton.1 hx
        refine ⟨hbody _ rfl, fun hsv => ?_⟩
        exact (hupsert t _ _ _ _ _ _ rfl hkey hsv).step h.cataloged h' hcatalog (List.Subset.refl _)

theorem Conformance.step {op : SpaceOp} (h : Conformance e w) (hstep : SpaceStep e w op w')
    (hleft : op.numbers w = true) (hbody : ∀ body, op.written = some body → e.RoundTrips body) : Conformance e w' := by
  cases hstep with
  | refused => exact h
  | request hr hother hstep =>
    exact h.request hr hstep hleft hbody fun t space table id sv body _ heq => absurd heq (hother t space table id sv body)
  | @upsert t write fresh row sv _ hrow hcheck hstep =>
    refine h.request rfl hstep rfl hbody fun t' space table id sv' body key heq hkey hsv => ?_
    obtain ⟨rfl, rfl, rfl, rfl, rfl, rfl⟩ := Request.upsertRecord.inj heq
    cases sv with
    | none => cases hsv
    | some i => exact h.cataloged.passed_of_checkSchema (recordKeyOf_of_recordKey hkey).plainTable hcheck _ _

/-- In every run of whole operations of the structured space whose registrations all find a version left, a live
version row of a user table with a schema version holds a body that `validate` accepts against the committed document
of that version. -/
theorem stored_records_conform (e : SpaceEnv) {hist : List (World × SpaceOp × World)} {w : World}
    (hrun : Run (SpaceOp.step e) {} hist w) (hleft : Numbered hist)
    (hserde : ∀ x ∈ hist, ∀ body, x.2.1.written = some body → e.RoundTrips body)
    {space table id : String} {v : Nat} {r : StoredRecordVersion}
    (hr : w.store.recordVersions[((space, table, id), v)]? = some r) (hlive : r.entry.deleted = false)
    (huser : table ≠ "_schema") (hsv : 0 < r.entry.schemaVersion) :
    ∃ schema body, w.CommittedSchema e space ("_table::" ++ table) r.entry.schemaVersion schema ∧
      e.fromSlice r.body = .ok body ∧ e.validator.validate schema body = .ok () := by
  have hempty : Conformance e {} := by
    refine ⟨.empty e, by simp, fun t row hrow => ?_, fun t row hrow => ?_⟩ <;> simp [Store.getTxnState] at hrow
  have h := (hrun.invariant (I := Conformance e) 
    (C := fun u (op : SpaceOp) => op.numbers u = true ∧ ∀ body, op.written = some body → e.RoundTrips body) hempty
    (fun _ _ _ hw hop hstep => hw.step (.of_step hstep) hop.1 hop.2) fun x hx => ⟨hleft x hx, hserde x hx⟩).1
  exact h.rows space table id v r hr hlive huser hsv

/-- The values whose texts the small environment knows. -/
def sampleBody : Value → Bool
  | .object [("type", .string "string")] => true
  | .string "a" => true
  | _ => false

theorem roundTrips_sample {body : Value} (h : sampleBody body = true) : SpaceEnv.sample.RoundTrips body := by
  unfold sampleBody at h
  split at h
  · refine ⟨by decide +kernel, ?_⟩
    simp only [SpaceEnv.sample, if_true]
    rfl
  · refine ⟨by decide +kernel, ?_⟩
    simp only [SpaceEnv.sample, if_true]
    rw [if_neg (by decide +kernel)]
  · cases h

theorem stored_records_conform_bound : ∃ hist w r, Run (SpaceOp.step .sample) {} hist w ∧
    w.store.recordVersions[(("s", "t", "r"), 1)]? = some r ∧ r.entry.schemaVersion = 1 ∧
    ∃ schema body, w.CommittedSchema .sample "s" "_table::t" 1 schema ∧ SpaceEnv.sample.fromSlice r.body = .ok body ∧
      SpaceEnv.sample.validator.validate schema body = .ok () := by
  obtain ⟨w, hrun, htest⟩ := Run.exists_of_exec
    (guarded (fun w (op : SpaceOp) => op.numbers w && op.written.all sampleBody) (SpaceOp.step .sample)) {}
    [.request (.call (.begin "T" none 0)), .request (.bindTableSchema "T" "s" "t" .stringSchema),
      .upsert "T" ⟨"s", "t", some "r", .string "a"⟩ "", .request (.commitTxn "T" fun _ => false)]
    (fun w => (w.store.recordVersions[(("s", "t", "r"), 1)]?).any fun r => !r.entry.deleted && r.entry.schemaVersion = 1)
    (by decide +kernel)
  obtain ⟨hrun, hguard⟩ := hrun.of_guarded
  simp only [Bool.and_eq_true] at hguard
  obtain ⟨r, hr, hrow⟩ := (Option.any_eq_true ..).1 htest
  obtain ⟨hlive, hsv⟩ : r.entry.deleted = false ∧ r.entry.schemaVersion = 1 := by simpa using hrow
  have hconform := stored_records_conform .sample hrun (fun x hx => (hguard x hx).1) (fun x hx body hbody => ?_) hr hlive (by decide) (by rw [hsv]; decide)
  · rw [hsv] at hconform
    exact ⟨_, w, r, hrun, hr, hsv, hconform⟩
  · have hknown := (hguard x hx).2
    rw [hbody] at hknown
    exact roundTrips_sample hknown

end Xtable
