import Xtable.Theorems.Conformance
import Xtable.Theorems.Refusals

/-! A schema version is a `u32`. A transaction that registers a schema once more than there are versions gets the
    first ones again. -/

namespace Xtable

open Coordinator Prog

variable {e : SpaceEnv} {w w' : World} {t space name table key : String} {row : TxnStateRecord}

/-! ## One transaction that registers -/

theorem Structured.of_spaceRun {hist : List (World × SpaceOp × World)} (h : Structured w)
    (hrun : Run (SpaceOp.step e) w hist w') : Structured w' := by
  refine (hrun.invariant (I := Structured) (C := fun _ _ => True) h (fun u op v hu _ hstep => ?_) fun _ _ => trivial).1
  cases SpaceStep.of_step hstep with
  | refused => exact hu
  | request hr _ hstep => exact (hu.step hr hstep).1
  | upsert _ _ hstep => exact (hu.step rfl hstep).1

/-- An active transaction that has read nothing and keeps its bodies in the write set, in a store without chains. -/
structure Drafting (w : World) (t : String) (row : TxnStateRecord) : Prop where
  structured : Structured w
  found : w.store.getTxnState t = some row
  active : row.status = .active
  unwritten : ∀ k, (w.store.readChain k).entries = []
  unread : w.locks.Named (fun _ _ => False) fun _ _ => True
  inline : ∀ (k : String) we, w.store.writeSet[(t, k)]? = some we → we.inlineBody ≠ none

theorem Drafting.bind {body : Value} (h : Drafting w t row) (hobject : body.isObject = true)
    (hsmall : (utf8 (e.jsonText body)).length ≤ spillThreshold)
    (hkey : schemaKey space ("_table::" ++ table) (w.nextSchemaVersion t space ("_table::" ++ table)) = .ok key) :
    ∃ w' row', SpaceOp.step e (.request (.bindTableSchema t space table body)) w = some w' ∧ Drafting w' t row' ∧
      w'.pendingOf t = (w.pendingOf t).addSchema
        ⟨space, "_table::" ++ table, w.nextSchemaVersion t space ("_table::" ++ table), body, key⟩ := by
  let w₁ := w.staged e.toEnv t key (utf8 (e.jsonText body)) (some "application/schema+json") [] false row
  have hrun := stageSchema_ok e.toEnv body hkey h.found h.active
  have hstep : SpaceOp.step e (.request (.bindTableSchema t space table body)) w =
      some (w₁.pendSchema t ⟨space, "_table::" ++ table, w.nextSchemaVersion t space ("_table::" ++ table), body, key⟩) := by
    simp only [SpaceOp.step, Request.structured, Request.step, Request.admits, if_true, Request.body, Engine.bindTableSchema,
      hobject]
    rw [bind_eq, run_bind_ok World.exec hrun]
    rfl
  refine ⟨_, row.withWriteKey key, hstep, ⟨h.structured.of_spaceRun (.cons hstep .nil), ?_, ?_, fun k => ?_, ?_, fun k we hwe => ?_⟩, ?_⟩
  · exact (txnState_staged h.found t).trans (if_pos rfl)
  · rw [TxnStateRecord.withWriteKey_status]
    exact h.active
  · exact (catalog_lookup (fun s => (s.readChain k).entries) (fun _ => rfl) (catalog_staged w.store)).trans (h.unwritten k)
  · exact h.unread.registerWrite trivial
  · have hset : w₁.store.writeSet = _ := writeSet_staged w.store
    have hwe : w₁.store.writeSet[(t, k)]? = some we := hwe
    rw [hset, Table.get_insert] at hwe
    split at hwe
    case isFalse => exact h.inline k we hwe
    case isTrue =>
      cases hwe
      simp [writeEntry, stagedHandle, hsmall.not_gt]
  · simp [World.pendSchema, World.pendingOf, w₁, World.staged]

theorem Drafting.binds {body : Value} {v : Nat} (hobject : body.isObject = true)
    (hsmall : (utf8 (e.jsonText body)).length ≤ spillThreshold) (hkey : schemaKey space ("_table::" ++ table) 0 = .ok key)
    (h : Drafting w t row) (hlast : ((w.pendingOf t).versionsOf space ("_table::" ++ table)).getLast? = some v)
    (hv : v < 2 ^ 32) (n : Nat) :
    ∃ hist w' row', Run (SpaceOp.step e) w hist w' ∧ (∀ x ∈ hist, ∀ b, x.2.1.written = some b → b = body) ∧
      Drafting w' t row' ∧
      ((w'.pendingOf t).versionsOf space ("_table::" ++ table)).getLast? = some ((v + n) % 2 ^ 32) ∧
      (∀ i, 0 < i → i ≤ n → (v + i) % 2 ^ 32 ∈ (w'.pendingOf t).versionsOf space ("_table::" ++ table)) ∧
      (∀ k, 0 < n → schemaKey space ("_table::" ++ table) ((v + n) % 2 ^ 32) = .ok k →
        ((w'.pendingOf t).docAt k).map (·.body) = some body) ∧
      ∀ k, (∀ i, schemaKey space ("_table::" ++ table) i ≠ .ok k) → (w'.pendingOf t).docAt k = (w.pendingOf t).docAt k := by
  induction n with
  | zero =>
    refine ⟨[], w, row, .nil, by simp, h, ?_, fun i hpos hle => by omega, fun k hpos => absurd hpos (lt_irrefl 0), fun _ _ => rfl⟩
    rw [Nat.add_zero, Nat.mod_eq_of_lt hv]
    exact hlast
  | succ n ih =>
    obtain ⟨hist, u, row₁, hrun, hwritten, hu, hlast₁, hall, -, hrest⟩ := ih
    have hnext : u.nextSchemaVersion t space ("_table::" ++ table) = (v + (n + 1)) % 2 ^ 32 := by
      rw [nextSchemaVersion_eq, World.lastVersion, hlast₁]
      simp [Nat.add_assoc]
    obtain ⟨k₁, hk₁⟩ := schemaKey_any hkey (u.nextSchemaVersion t space ("_table::" ++ table))
    obtain ⟨u', row', hstep, hu', hpending⟩ := hu.bind hobject hsmall hk₁
    rw [hnext] at hpending hk₁
    have hversions : (u'.pendingOf t).versionsOf space ("_table::" ++ table) =
        (u.pendingOf t).versionsOf space ("_table::" ++ table) ++ [(v + (n + 1)) % 2 ^ 32] := by
      rw [hpending, PendingTxn.versionsOf_addSchema, if_pos ⟨rfl, rfl⟩]
    refine ⟨_, u', row', hrun.snoc hstep, fun x hx b hb => ?_, hu', by simp [hversions], fun i hpos hle => ?_,
      fun k _ hk => ?_, fun k hk => ?_⟩
    · rcases List.mem_append.1 hx with hx | hx
      · exact hwritten x hx b hb
      · obtain rfl := List.mem_singleton.1 hx
        exact (Option.some.inj hb).symm
    · rw [hversions, List.mem_append]
      rcases Nat.lt_or_ge n i with hlt | hle'
      · exact .inr (by rw [show i = n + 1 by omega]; exact List.mem_singleton_self _)
      · exact .inl (hall i hpos hle')
    · rw [hpending, PendingTxn.docAt_addSchema, if_pos (Except.ok.inj (hk₁.symm.trans hk))]
      rfl
    · have hne : k₁ ≠ k := fun heq => hk _ (heq ▸ hk₁)
      rw [hpending, PendingTxn.docAt_addSchema, if_neg hne, hrest k hk]

/-! ## Its commit -/

theorem Drafting.commits (h : Drafting w t row) (aged : String → Bool) :
    ∃ w', SpaceOp.step e (.request (.commitTxn t aged)) w = some (w'.unpend t) ∧ Publication e.toEnv w t row w' := by
  have hpeer : w.locks.findDangerousStructure t = none := by
    refine Option.eq_none_iff_forall_ne_some.2 fun p hp => ?_
    obtain ⟨-, locks, hlocks, ⟨i, hi, -⟩, -⟩ := SiLockManager.findDangerousStructure_eq_some hp
    exact (h.unread.ins t locks hlocks i hi).1
  have hbodies : ∀ x ∈ w.store.iterWriteSet t, ∃ body, w.stagedBody x.2 = .ok body := by
    intro x hx
    obtain ⟨body, hbody⟩ := Option.ne_none_iff_exists'.1 (h.inline x.1 x.2 (mem_iterWriteSet.1 hx))
    unfold World.stagedBody
    exact ⟨body, by simp only [hbody]⟩
  obtain ⟨v, w', hrun, hpub⟩ := commit_publishes e.toEnv aged h.structured.inv h.found h.active
    (stagedBodies_ne_error hbodies ∅) hpeer fun k _ => by simp [VersionChain.latestCommitVersion, h.unwritten k]
  refine ⟨w', ?_, hpub⟩
  have hcommit := commitTxn_run e.toEnv aged w t
  rw [hrun] at hcommit
  simp only [SpaceOp.step, Request.structured, Request.step, Request.admits, if_true, Request.body, discard_run_snd, hcommit]

theorem Publication.schemas_of_drafting (hpub : Publication e.toEnv w t row w') (h : Drafting w t row) {i : Nat}
    (hkey : schemaKey space name i = .ok key) (hi : i ∈ (w.pendingOf t).versionsOf space name) :
    w'.store.SchemaCommitted space name i ∧ ∀ d schema, (w.pendingOf t).docAt key = some d →
      w'.CommittedSchema e space name i schema → e.fromSlice (utf8 (e.jsonText d.body)) = .ok schema := by
  have hdraft := h.structured.drafts.active t row h.found h.active
  have hchain : (w'.store.readChain key).entries = [chainEntry t (w.store.iterWriteSet t) key (w.nextVersion row)] := by
    rw [hpub.chains, h.unwritten, if_pos ((hdraft.keys key).2 ((hdraft.keyed.docAt_schema hkey).2 hi)), List.nil_append]
  refine ⟨⟨key, hkey, by simp [hchain]⟩, fun d schema hd hschema => ?_⟩
  obtain ⟨key', c, r, hkey', hc, hr, hparse⟩ := hschema
  obtain rfl := Except.ok.inj (hkey.symm.trans hkey')
  rw [hchain, List.mem_singleton] at hc
  obtain ⟨q, -, rfl, rfl, rfl, rfl⟩ := hdraft.keyed.docAt_of_schema hkey hd
  have hrow := hpub.version_row hdraft hd
  rw [hc, chainEntry_commitVersion] at hr
  cases hr.symm.trans hrow
  exact hparse

/-! ## A record between them -/

def Value.numberSchema : Value := .object [("type", .string "number")]

def SpaceEnv.typed : SpaceEnv :=
  { SpaceEnv.sample with
    jsonText := fun v => match v with
      | .object [("type", .string "number")] => "\x7b\"type\":\"number\"\x7d"
      | v => SpaceEnv.sample.jsonText v
    fromSlice := fun text =>
      if text = utf8 "\x7b\"type\":\"number\"\x7d" then .ok .numberSchema else SpaceEnv.sample.fromSlice text }

theorem roundTrips_numberSchema : SpaceEnv.typed.RoundTrips .numberSchema := by
  refine ⟨by decide +kernel, ?_⟩
  simp only [SpaceEnv.typed, Value.numberSchema, if_true]

theorem roundTrips_typed {body : Value} (h : sampleBody body = true) : SpaceEnv.typed.RoundTrips body := by
  obtain ⟨hne, hparse⟩ := roundTrips_sample h
  have htext : SpaceEnv.typed.jsonText body = SpaceEnv.sample.jsonText body ∧
      utf8 (SpaceEnv.sample.jsonText body) ≠ utf8 "\x7b\"type\":\"number\"\x7d" := by
    unfold sampleBody at h
    split at h
    · exact ⟨by decide +kernel, by decide +kernel⟩
    · exact ⟨by decide +kernel, by decide +kernel⟩
    · cases h
  rw [SpaceEnv.RoundTrips, htext.1]
  refine ⟨hne, ?_⟩
  simp only [SpaceEnv.typed, if_neg htext.2]
  exact hparse

/-- The tests of `Drafting` that can be evaluated. -/
def World.drafts (t : String) (w : World) : Bool :=
  (w.store.getTxnState t).any (·.status = .active) && w.store.versionChains.isEmpty && w.locks.readersOf.isEmpty &&
    (w.locks.byTxn.toList.all fun x => x.2.inEdges = [] && x.2.outEdges = []) &&
    w.store.writeSet.toList.all fun x => x.2.inlineBody.isSome

theorem Drafting.of_test (hs : Structured w) (h : w.drafts t = true) : ∃ row, Drafting w t row := by
  simp only [World.drafts, Bool.and_eq_true, List.all_eq_true, decide_eq_true_eq] at h
  obtain ⟨⟨⟨⟨hrow, hchains⟩, hreaders⟩, hedges⟩, hinline⟩ := h
  obtain ⟨row, hrow, hst⟩ := (Option.any_eq_true ..).1 hrow
  have hedges : ∀ (t : String) locks, w.locks.byTxn[t]? = some locks → locks.inEdges = [] ∧ locks.outEdges = [] :=
    fun t locks hlocks => hedges (t, locks) (Table.mem_toList.2 hlocks)
  refine ⟨row, hs, hrow, of_decide_eq_true hst, fun k => ?_, ⟨fun k r hr => ?_, fun _ _ _ => trivial, fun t locks hlocks x hx => ?_,
    fun t locks hlocks x hx => ?_⟩, fun k we hwe => ?_⟩
  · simp [Store.readChain, Std.ExtTreeMap.isEmpty_iff.1 hchains, VersionChain.new]
  · simp [SiLockManager.readers, Std.ExtTreeMap.isEmpty_iff.1 hreaders] at hr
  · simp [(hedges t locks hlocks).1] at hx
  · simp [(hedges t locks hlocks).2] at hx
  · exact Option.isSome_iff_ne_none.1 (hinline ((t, k), we) (Table.mem_toList.2 hwe))

theorem wrapped_run : ∃ hist w, ∃ v : Nat, ∃ r, Run (SpaceOp.step .typed) {} hist w ∧
    (∀ x ∈ hist, ∀ body, x.2.1.written = some body → SpaceEnv.typed.RoundTrips body) ∧
    w.store.schemaCount "s" "_table::t" = 1 ∧ w.store.SchemaCommitted "s" "_table::t" 2 ∧
    w.store.recordVersions[(("s", "t", "r"), v)]? = some r ∧ r.entry.deleted = false ∧ r.entry.schemaVersion = 1 ∧
    SpaceEnv.typed.fromSlice r.body = .ok (.string "a") ∧
    ∀ schema, w.CommittedSchema .typed "s" "_table::t" 1 schema → schema = .numberSchema := by
  obtain ⟨w₁, hguarded, htest⟩ := Run.exists_of_exec
    (guarded (fun _ (op : SpaceOp) => op.written.all sampleBody) (SpaceOp.step .typed)) {}
    [.request (.call (.begin "T" none 0)), .request (.bindTableSchema "T" "s" "t" .stringSchema),
      .upsert "T" ⟨"s", "t", some "r", .string "a"⟩ ""]
    (fun w => w.drafts "T" && (w.pendingOf "T").versionsOf "s" "_table::t" = [1] &&
      ((w.pendingOf "T").docAt "_xtable/s/t/r.json").any fun d => d.rk = ("s", "t", "r") && !d.deleted &&
        d.schemaVersion = 1 && SpaceEnv.typed.jsonText d.body = "\"a\"")
    (by decide +kernel)
  obtain ⟨hrun₁, hknown⟩ := hguarded.of_guarded
  simp only [Bool.and_eq_true, decide_eq_true_eq] at htest
  obtain ⟨⟨hdrafts, hversions⟩, hrecord⟩ := htest
  obtain ⟨row₁, hw₁⟩ := Drafting.of_test (Structured.empty.of_spaceRun hrun₁) hdrafts
  have hname : "_table::" ++ "t" = "_table::t" := by decide +kernel
  rw [← hname] at hversions ⊢
  -- as many schemas again as there are versions
  have hobject : Value.numberSchema.isObject = true := rfl
  have hsmall : (utf8 (SpaceEnv.typed.jsonText .numberSchema)).length ≤ spillThreshold := by decide +kernel
  have hkey₀ : schemaKey "s" ("_table::" ++ "t") 0 = .ok "_xtable/s/_schema/_table::t/v0.json" := by decide +kernel
  obtain ⟨hist₂, w₂, row₂, hrun₂, hwritten, hw₂, hlast, hall, hdoc, hrest⟩ :=
    hw₁.binds hobject hsmall hkey₀ (by rw [hversions]; rfl) (by decide) (2 ^ 32)
  obtain ⟨w₃, hstep, hpub⟩ := hw₂.commits fun _ => false
  have hdraft := hw₂.structured.drafts.active _ _ hw₂.found hw₂.active
  have hkey₁ : schemaKey "s" ("_table::" ++ "t") 1 = .ok "_xtable/s/_schema/_table::t/v1.json" := by decide +kernel
  have hkey₂ : schemaKey "s" ("_table::" ++ "t") 2 = .ok "_xtable/s/_schema/_table::t/v2.json" := by decide +kernel
  -- the record stands as it was staged
  have hapart : ∀ i, schemaKey "s" ("_table::" ++ "t") i ≠ .ok "_xtable/s/t/r.json" := by
    intro i hi
    have hrecord : recordKey "s" "t" "r" = .ok "_xtable/s/t/r.json" := by decide +kernel
    have hsame := (DocKey.schema hi).record_unique (.record hrecord)
    exact absurd (Prod.mk.inj (Prod.mk.inj hsame).2).1 (by decide)
  rw [← hrest _ hapart] at hrecord
  obtain ⟨d, hd, hrow⟩ := (Option.any_eq_true ..).1 hrecord
  simp only [Bool.and_eq_true, decide_eq_true_eq, Bool.not_eq_true'] at hrow
  obtain ⟨⟨⟨hrk, hlive⟩, hsv⟩, htext⟩ := hrow
  refine ⟨_, w₃.unpend "T", _, _, (hrun₁.trans hrun₂).snoc hstep, fun x hx body hbody => ?_, ?_, ?_,
    hrk ▸ hpub.version_row hdraft hd, hlive, hsv, ?_, fun schema hschema => ?_⟩
  · rcases List.mem_append.1 hx with hx | hx
    · rcases List.mem_append.1 hx with hx | hx
      · have hsample := hknown x hx
        rw [hbody] at hsample
        exact roundTrips_typed hsample
      · rw [hwritten x hx body hbody]
        exact roundTrips_numberSchema
    · obtain rfl := List.mem_singleton.1 hx
      cases hbody
  · have hcount := schemaCount_publication hpub hdraft "s" ("_table::" ++ "t")
    rw [hlast] at hcount
    exact hcount
  · exact (hpub.schemas_of_drafting hw₂ hkey₂ (hall 1 (by decide) (by decide))).1
  · simp only [Doc.row, htext]
    exact (roundTrips_typed rfl : SpaceEnv.typed.RoundTrips (.string "a")).2
  · have hone : 1 ∈ (w₂.pendingOf "T").versionsOf "s" ("_table::" ++ "t") := hall (2 ^ 32) (by decide) le_rfl
    obtain ⟨d₁, hd₁, hbody₁⟩ := Option.map_eq_some_iff.1 (hdoc _ (by decide) hkey₁)
    have hparse := (hpub.schemas_of_drafting hw₂ hkey₁ hone).2 d₁ schema hd₁ hschema
    rw [hbody₁, roundTrips_numberSchema.2] at hparse
    exact (Except.ok.inj hparse).symm

/-- Version `2` of a schema is committed, and the latest one is `1`. -/
theorem schema_versions_wrap : ∃ hist w, Run (SpaceOp.step .typed) {} hist w ∧ Legible .typed hist ∧
    ¬ ∀ i, w.store.SchemaCommitted "s" "_table::t" i ↔ 1 ≤ i ∧ i ≤ w.store.schemaCount "s" "_table::t" := by
  obtain ⟨hist, w, -, -, hrun, hserde, hcount, hcommitted, -⟩ := wrapped_run
  refine ⟨hist, w, hrun, fun x hx body hbody => (hserde x hx body hbody).reads, fun hall => ?_⟩
  have hle := ((hall 2).1 hcommitted).2
  rw [hcount] at hle
  exact absurd hle (by decide)

/-- A stored string has been checked against version `1` of its table's schema, and version `1` is now that of numbers. -/
theorem stored_record_strays : ∃ hist w, ∃ v : Nat, ∃ r, Run (SpaceOp.step .typed) {} hist w ∧
    (∀ x ∈ hist, ∀ body, x.2.1.written = some body → SpaceEnv.typed.RoundTrips body) ∧
    w.store.recordVersions[(("s", "t", "r"), v)]? = some r ∧ r.entry.deleted = false ∧ 0 < r.entry.schemaVersion ∧
    ¬ ∃ schema body, w.CommittedSchema .typed "s" "_table::t" r.entry.schemaVersion schema ∧
      SpaceEnv.typed.fromSlice r.body = .ok body ∧ SpaceEnv.typed.validator.validate schema body = .ok () := by
  obtain ⟨hist, w, v, r, hrun, hserde, -, -, hr, hlive, hsv, hparse, honly⟩ := wrapped_run
  refine ⟨hist, w, v, r, hrun, hserde, hr, hlive, by rw [hsv]; decide, ?_⟩
  rintro ⟨schema, body, hschema, hbody, hvalid⟩
  rw [hsv] at hschema
  obtain rfl := honly schema hschema
  cases hparse.symm.trans hbody
  have hrefused : SpaceEnv.typed.validator.validate .numberSchema (.string "a") ≠ .ok () := by decide +kernel
  exact hrefused hvalid

end Xtable
