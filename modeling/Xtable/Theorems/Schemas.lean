import Xtable.Theorems.Agreement

/-! The versions of a schema are allocated outside the commit. The committed ones are those the index counts, and
    those an active transaction has staged follow the count, or would be refused, as long as no registration finds
    all versions used. -/

namespace Xtable

open Coordinator

variable {env : Env} {w w' : World} {t space name key : String} {row : TxnStateRecord} {i : Nat}

/-! ## Staged versions -/

/-- How many versions of a schema the index counts. -/
def Store.schemaCount (s : Store) (space name : String) : Nat := ((s.getSchemaIndex space name).map (·.latestVersion)).getD 0

/-- The versions of a schema that a transaction has staged. -/
def PendingTxn.versionsOf (p : PendingTxn) (space name : String) : List Nat :=
  (p.schemas.filter fun q => q.space = space && q.name = name).map (·.version)

namespace PendingTxn

variable {p : PendingTxn} {q : PendingSchema}

theorem versionsOf_addSchema : (p.addSchema q).versionsOf space name =
    if q.space = space ∧ q.name = name then p.versionsOf space name ++ [q.version] else p.versionsOf space name := by
  by_cases h : q.space = space ∧ q.name = name
  · simp [versionsOf, addSchema, List.filter_append, h]
  · have hnot : (decide (q.space = space) && decide (q.name = name)) = false := by simpa using h
    simp [versionsOf, addSchema, List.filter_append, hnot, h]

theorem getLast?_versionsOf : (p.versionsOf space name).getLast? =
    (p.schemas.reverse.find? fun q => q.space = space && q.name = name).map (·.version) := by
  rw [versionsOf, List.getLast?_map, ← List.head?_filter, List.filter_reverse, List.head?_reverse]

theorem mem_versionsOf : i ∈ p.versionsOf space name ↔
    ∃ q ∈ p.schemas, q.space = space ∧ q.name = name ∧ q.version = i := by
  simp [versionsOf, and_assoc]

theorem Keyed.docAt_of_schema {d : Doc} (hp : p.Keyed) (hkey : schemaKey space name i = .ok key)
    (hd : p.docAt key = some d) : ∃ q ∈ p.schemas, d = q.doc ∧ q.space = space ∧ q.name = name ∧ q.version = i := by
  obtain ⟨hmem, rfl⟩ := docAt_mem hd
  -- the key tells which document it is
  have hrk := (hp.docKey hmem).record_unique (.schema hkey)
  rcases List.mem_append.1 hmem with hmem | hmem
  · obtain ⟨r, hr, rfl⟩ := List.mem_map.1 hmem
    exact absurd (Prod.mk.inj (Prod.mk.inj hrk).2).1 (recordKeyOf_of_recordKey (hp.records r hr)).reserved
  · obtain ⟨q, hq, rfl⟩ := List.mem_map.1 hmem
    obtain ⟨hspace, hrest⟩ := Prod.mk.inj hrk
    obtain ⟨hname, hversion⟩ := schemaId_inj (schemaKeyOf_of_schemaKey (hp.schemas q hq)).plainName
      (schemaKeyOf_of_schemaKey hkey).plainName (Prod.mk.inj hrest).2
    exact ⟨q, hq, rfl, hspace, hname, hversion⟩

theorem Keyed.docAt_schema (hp : p.Keyed) (hkey : schemaKey space name i = .ok key) :
    p.docAt key ≠ none ↔ i ∈ p.versionsOf space name := by
  rw [mem_versionsOf]
  constructor
  · intro hne
    obtain ⟨d, hd⟩ := Option.ne_none_iff_exists'.1 hne
    obtain ⟨q, hq, -, hspace, hname, hversion⟩ := hp.docAt_of_schema hkey hd
    exact ⟨q, hq, hspace, hname, hversion⟩
  · rintro ⟨q, hq, rfl, rfl, rfl⟩ hnone
    have hdoc : q.doc ∈ p.docs := List.mem_append_right _ (List.mem_map_of_mem hq)
    exact docAt_eq_none.1 hnone q.doc hdoc (Except.ok.inj ((hp.schemas q hq).symm.trans hkey))

end PendingTxn

/-- The version that the next one of a schema follows: the last that the transaction has staged, or the latest in the
index. -/
def World.lastVersion (w : World) (t space name : String) : Nat :=
  ((w.pendingOf t).versionsOf space name).getLast?.getD (w.store.schemaCount space name)

/-- A registration finds a version that is left for its schema. -/
def Request.numbers (w : World) : Request → Bool
  | .registerSchema t space name _ => w.lastVersion t space name + 1 < 2 ^ 32
  | .bindTableSchema t space table _ => w.lastVersion t space ("_table::" ++ table) + 1 < 2 ^ 32
  | _ => true

theorem nextSchemaVersion_eq (w : World) (t space name : String) :
    w.nextSchemaVersion t space name = (w.lastVersion t space name + 1) % 2 ^ 32 := by
  rw [World.nextSchemaVersion, World.lastVersion, PendingTxn.getLast?_versionsOf, Store.schemaCount]
  cases ((w.pendingOf t).schemas.reverse.find? fun q => q.space = space && q.name = name).map (·.version) with
  | some v => rfl
  | none =>
    cases w.store.getSchemaIndex space name <;> rfl

/-- Versions staged at a snapshot follow those the index counts, unless another transaction has committed the first of
them since. -/
def Store.Follows (s : Store) (snapshot : Nat) (space name : String) (versions : List Nat) : Prop :=
  ∃ a k, versions = List.range' (a + 1) k ∧ a + k < 2 ^ 32 ∧ a ≤ s.schemaCount space name ∧
    (a < s.schemaCount space name → 0 < k → ∀ key, schemaKey space name (a + 1) = .ok key →
      snapshot < (s.readChain key).latestCommitVersion)

/-- A version of a schema has been committed. -/
def Store.SchemaCommitted (s : Store) (space name : String) (i : Nat) : Prop :=
  ∃ key, schemaKey space name i = .ok key ∧ (s.readChain key).entries ≠ []

/-- The registered schemas, and those in the making. -/
structure Registry (w : World) : Prop where
  bounded : ∀ space name, w.store.schemaCount space name < 2 ^ 32
  documents : ∀ space name i key, schemaKey space name i = .ok key → (w.store.readChain key).entries.length =
    if 1 ≤ i ∧ i ≤ w.store.schemaCount space name then 1 else 0
  live : ∀ space name i key, schemaKey space name i = .ok key → ∀ e ∈ (w.store.readChain key).entries, e.deleted = false
  staged : ∀ t row, w.store.getTxnState t = some row → row.status = .active → ∀ space name,
    w.store.Follows row.snapshotVersion space name ((w.pendingOf t).versionsOf space name)
  named : ∀ space name idx, w.store.getSchemaIndex space name = some idx → ∃ key, schemaKey space name 1 = .ok key
  idle : ∀ t row, w.store.getTxnState t = some row → row.status ≠ .committing
  writers : ∀ t row space name i key, w.store.getTxnState t = some row → row.status = .committed →
    schemaKey space name i = .ok key → key ∈ row.writeKeys → ∃ e ∈ (w.store.readChain key).entries, e.txnId = t

/-! ## Publications -/

theorem schemaCount_publication (h : Publication env w t row w') (hdraft : Draft w t row) (space name : String) :
    w'.store.schemaCount space name =
      ((w.pendingOf t).versionsOf space name).getLast?.getD (w.store.schemaCount space name) := by
  rw [Store.schemaCount, Store.getSchemaIndex, h.schemaIndex_eq, Store.indexed_eq hdraft.keyed]
  simp only [Table.get_insertAll, ← List.map_reverse, List.find?_map, Function.comp_def, PendingTxn.getLast?_versionsOf]
  have hpred : (fun q : PendingSchema => decide (q.indexRow.1 = (space, name))) =
      fun q => decide (q.space = space) && decide (q.name = name) := by
    funext q
    simp [PendingSchema.indexRow]
  rw [hpred]
  cases (w.pendingOf t).schemas.reverse.find? fun q => decide (q.space = space) && decide (q.name = name) <;> rfl

theorem Publication.schemas (h : Publication env w t row w') (hdraft : Draft w t row) (hreg : Registry w)
    (space name : String) : ∃ k,
      (w.pendingOf t).versionsOf space name = List.range' (w.store.schemaCount space name + 1) k ∧
      w'.store.schemaCount space name = w.store.schemaCount space name + k ∧ w.store.schemaCount space name + k < 2 ^ 32 := by
  obtain ⟨a, k, hversions, hbound, ha, hconflict⟩ := hreg.staged t row h.found h.active space name
  have hcount := schemaCount_publication h hdraft space name
  rw [hversions] at hcount
  rcases Nat.eq_zero_or_pos k with rfl | hk
  · exact ⟨0, by simpa using hversions, by simpa using hcount, hreg.bounded space name⟩
  · -- the first version is one of the keys that have nothing newer than the snapshot
    have hfirst : a + 1 ∈ (w.pendingOf t).versionsOf space name := by
      rw [hversions, List.mem_range'_1]
      omega
    obtain ⟨q, hq, rfl, rfl, hversion⟩ := PendingTxn.mem_versionsOf.1 hfirst
    have hkey := hdraft.keyed.schemas q hq
    rw [hversion] at hkey
    have hmem : q.backendKey ∈ row.writeKeys :=
      (hdraft.keys _).2 ((hdraft.keyed.docAt_schema hkey).2 hfirst)
    have heq : a = w.store.schemaCount q.space q.name := by
      by_contra hne
      have hnewer := hconflict (lt_of_le_of_ne ha hne) hk _ hkey
      cases hlast : (w.store.readChain q.backendKey).entries.getLast? with
      | none => simp [VersionChain.latestCommitVersion, hlast] at hnewer
      | some e =>
        have hle := Store.newerKey_none h.newest hmem hlast
        simp only [VersionChain.latestCommitVersion, hlast] at hnewer
        exact absurd hle (not_le.2 hnewer)
    subst heq
    refine ⟨k, hversions, ?_, hbound⟩
    rw [hcount, List.getLast?_range', if_neg (by omega)]
    simp only [Option.getD_some]
    omega

theorem Publication.mem_writeKeys (h : Publication env w t row w') (hdraft : Draft w t row) (hreg : Registry w)
    (hkey : schemaKey space name i = .ok key) : key ∈ row.writeKeys ↔
      w.store.schemaCount space name < i ∧ i ≤ w'.store.schemaCount space name := by
  obtain ⟨k, hversions, hcount, -⟩ := h.schemas hdraft hreg space name
  rw [hdraft.keys, hdraft.keyed.docAt_schema hkey, hversions, List.mem_range'_1, hcount]
  omega

/-! ## Requests -/

theorem schemaCount_catalog {s s' : Store} (h : s'.catalog = s.catalog) (space name : String) :
    s'.schemaCount space name = s.schemaCount space name :=
  catalog_lookup (fun s => s.schemaCount space name) (fun _ => rfl) h

theorem readChain_catalog {s s' : Store} (h : s'.catalog = s.catalog) (key : String) : s'.readChain key = s.readChain key :=
  catalog_lookup (fun s => s.readChain key) (fun _ => rfl) h

theorem CatalogStep.schemaCount_le (h : CatalogStep env w w') (hdrafts : Drafts w) (hreg : Registry w) (space name : String) :
    w.store.schemaCount space name ≤ w'.store.schemaCount space name := by
  cases h with
  | kept h _ => exact (schemaCount_catalog h ..).ge
  | @collected u hu h _ =>
    have hcollected : w'.store.schemaCount space name = u.store.schemaCount space name := schemaCount_catalog h ..
    rw [hcollected, schemaCount_catalog hu]
  | published h =>
    obtain ⟨k, -, hcount, -⟩ := h.schemas (hdrafts.active _ _ h.found h.active) hreg space name
    omega

theorem CatalogStep.schema_chain (h : CatalogStep env w w') (hdrafts : Drafts w) (hreg : Registry w)
    (hkey : schemaKey space name i = .ok key) (hne : (w.store.readChain key).entries ≠ []) :
    (w'.store.readChain key).entries = (w.store.readChain key).entries := by
  have hlength := hreg.documents space name i key hkey
  have hpos := List.length_pos_of_ne_nil hne
  have hin : 1 ≤ i ∧ i ≤ w.store.schemaCount space name := by
    by_contra hout
    rw [if_neg hout] at hlength
    omega
  rw [if_pos hin] at hlength
  cases h with
  | kept h _ => rw [readChain_catalog h]
  | @collected u hu h _ =>
    have hgc : w'.store.readChain key = u.collected.store.readChain key := readChain_catalog h key
    have hprune : u.collected.store.readChain key = _ := u.store.readChain_gc none key
    rw [hgc, hprune, readChain_catalog hu]
    obtain ⟨front, x, back, heq, hfront, -, -⟩ := VersionChain.keepFrom_spec hne (u.store.gcThreshold none)
    -- there is one version, and the newest is never dropped
    have hnil : front.length = 0 := by
      have hlen := congrArg List.length heq
      simp only [List.length_append, List.length_cons] at hlen
      omega
    rw [VersionChain.pruneBelow, ← hfront, hnil]
    rfl
  | published h =>
    have hout : key ∉ _ := fun hmem =>
      absurd ((h.mem_writeKeys (hdrafts.active _ _ h.found h.active) hreg hkey).1 hmem).1 (not_lt.2 hin.2)
    rw [h.chains key, if_neg hout, List.append_nil]

theorem RowStep.idle {row' : TxnStateRecord} (h : RowStep env w w' t row')
    (hidle : w.store.getTxnState t = some row' → row'.status ≠ .committing) : row'.status ≠ .committing := by
  cases h with
  | kept hold => exact hidle hold
  | «open» hst => simp [hst]
  | aborted hst => simp [hst]
  | published _ heq => simp [heq]

theorem CatalogStep.follows {snapshot : Nat} {versions : List Nat} (h : CatalogStep env w w') (hdrafts : Drafts w)
    (hreg : Registry w) (hsnapshot : snapshot ≤ w.store.globalVersion)
    (hf : w.store.Follows snapshot space name versions) : w'.store.Follows snapshot space name versions := by
  obtain ⟨a, k, hversions, hbound, ha, hconflict⟩ := hf
  refine ⟨a, k, hversions, hbound, ha.trans (h.schemaCount_le hdrafts hreg space name), fun hlt hk key hkey => ?_⟩
  have hlength := hreg.documents space name (a + 1) key hkey
  by_cases hold : a < w.store.schemaCount space name
  · rw [if_pos (by omega)] at hlength
    have hne : (w.store.readChain key).entries ≠ [] := List.length_pos_iff.1 (by omega)
    have hsame := h.schema_chain hdrafts hreg hkey hne
    simpa only [VersionChain.latestCommitVersion, hsame] using hconflict hold hk key hkey
  · -- the first version was free, and has been published by this step
    cases h with
    | kept h _ =>
      rw [schemaCount_catalog h] at hlt
      omega
    | @collected u hu h _ =>
      have hcount : w'.store.schemaCount space name = u.store.schemaCount space name := schemaCount_catalog h ..
      rw [hcount, schemaCount_catalog hu] at hlt
      omega
    | @published t row h =>
      have hmem := (h.mem_writeKeys (hdrafts.active _ _ h.found h.active) hreg hkey).2 ⟨by omega, by omega⟩
      have hnext : w.nextVersion row = w.store.globalVersion + 1 := if_neg (List.ne_nil_of_mem hmem)
      have hlast : (w'.store.readChain key).latestCommitVersion = w.nextVersion row := by
        rw [VersionChain.latestCommitVersion, h.chains key, if_pos hmem]
        simp
      omega

theorem Store.Follows.next {s : Store} {snapshot : Nat} {versions : List Nat} (h : s.Follows snapshot space name versions)
    (hleft : versions.getLast?.getD (s.schemaCount space name) + 1 < 2 ^ 32) :
    s.Follows snapshot space name (versions ++ [versions.getLast?.getD (s.schemaCount space name) + 1]) := by
  obtain ⟨a, k, rfl, hbound, ha, hconflict⟩ := h
  rcases Nat.eq_zero_or_pos k with rfl | hk
  · exact ⟨s.schemaCount space name, 1, by simp, by simpa using hleft, le_rfl, fun hlt => absurd hlt (lt_irrefl _)⟩
  · have hlast : (List.range' (a + 1) k).getLast?.getD (s.schemaCount space name) = a + k := by
      rw [List.getLast?_range', if_neg (by omega), Option.getD_some]
      omega
    rw [hlast] at hleft ⊢
    refine ⟨a, k + 1, ?_, by omega, ha, fun hlt _ => hconflict hlt hk⟩
    rw [List.range'_1_concat, Nat.add_right_comm]

theorem schemaKey_any (h : schemaKey space name i = .ok key) (j : Nat) : ∃ key', schemaKey space name j = .ok key' := by
  simp only [schemaKey, bind_ok_iff] at h ⊢
  obtain ⟨⟨⟩, hspace, ⟨⟩, hname, -⟩ := h
  exact ⟨_, (), hspace, (), hname, rfl⟩

namespace Registry

section

variable (hreg : Registry w) (hdrafts : Drafts w) (h : CatalogStep env w w')

include hreg hdrafts h

theorem named_step {idx : SchemaIndexEntry}
    (hidx : w'.store.getSchemaIndex space name = some idx) : ∃ key, schemaKey space name 1 = .ok key := by
  cases h with
  | kept h _ =>
    exact hreg.named space name idx ((catalog_lookup (fun s => s.getSchemaIndex space name) (fun _ => rfl) h).symm.trans hidx)
  | @collected u hu h _ =>
    have hsame : w'.store.getSchemaIndex space name = u.collected.store.getSchemaIndex space name :=
      catalog_lookup (fun s => s.getSchemaIndex space name) (fun _ => rfl) h
    have hold := catalog_lookup (fun s => s.getSchemaIndex space name) (fun _ => rfl) hu
    exact hreg.named space name idx (hold.symm.trans (hsame.symm.trans hidx))
  | @published t row h =>
    have hdraft := hdrafts.active t row h.found h.active
    rw [Store.getSchemaIndex, h.schemaIndex_eq, Store.indexed_eq hdraft.keyed] at hidx
    rcases Table.mem_of_get_insertAll hidx with hmem | hold
    · obtain ⟨q, hq, heq⟩ := List.mem_map.1 hmem
      obtain ⟨rfl, rfl⟩ := Prod.mk.inj (Prod.mk.inj heq).1
      exact schemaKey_any (hdraft.keyed.schemas q hq) 1
    · exact hreg.named space name idx hold

theorem documents_step (hkey : schemaKey space name i = .ok key) : (w'.store.readChain key).entries.length =
      if 1 ≤ i ∧ i ≤ w'.store.schemaCount space name then 1 else 0 := by
  have hlength := hreg.documents space name i key hkey
  have hle := h.schemaCount_le hdrafts hreg space name
  by_cases hin : 1 ≤ i ∧ i ≤ w.store.schemaCount space name
  · rw [if_pos hin] at hlength
    have hne : (w.store.readChain key).entries ≠ [] := List.length_pos_iff.1 (by omega)
    rw [h.schema_chain hdrafts hreg hkey hne, hlength, if_pos ⟨hin.1, hin.2.trans hle⟩]
  · rw [if_neg hin] at hlength
    have hnil := List.length_eq_zero_iff.1 hlength
    cases h with
    | kept h _ => rw [readChain_catalog h, schemaCount_catalog h, if_neg hin, hlength]
    | @collected u hu h _ =>
      have hcount : w'.store.schemaCount space name = u.store.schemaCount space name := schemaCount_catalog h ..
      have hgc : w'.store.readChain key = u.collected.store.readChain key := readChain_catalog h key
      have hprune : u.collected.store.readChain key = _ := u.store.readChain_gc none key
      rw [hcount, schemaCount_catalog hu, if_neg hin, hgc, hprune, readChain_catalog hu,
        VersionChain.pruneBelow_eq_nil_iff.2 hnil, List.length_nil]
    | published h =>
      have hmem := h.mem_writeKeys (hdrafts.active _ _ h.found h.active) hreg hkey
      rw [h.chains key, hnil, List.nil_append]
      by_cases hout : w.store.schemaCount space name < i ∧ i ≤ w'.store.schemaCount space name
      · rw [if_pos (hmem.2 hout), if_pos (by omega), List.length_singleton]
      · rw [if_neg fun hk => hout (hmem.1 hk), if_neg (by omega), List.length_nil]

theorem live_step
    (hkey : schemaKey space name i = .ok key) {e : VersionEntry} (he : e ∈ (w'.store.readChain key).entries) :
    e.deleted = false := by
  by_cases hnil : (w.store.readChain key).entries = []
  · cases h with
    | kept h _ =>
      rw [readChain_catalog h, hnil] at he
      cases he
    | @collected u hu h _ =>
      have hgc : w'.store.readChain key = u.collected.store.readChain key := readChain_catalog h key
      have hprune : u.collected.store.readChain key = _ := u.store.readChain_gc none key
      rw [hgc, hprune, readChain_catalog hu, VersionChain.pruneBelow_eq_nil_iff.2 hnil] at he
      cases he
    | @published t row h =>
      have hdraft := hdrafts.active t row h.found h.active
      rw [h.chains key, hnil, List.nil_append] at he
      split at he
      case isFalse => cases he
      case isTrue hmem =>
        obtain rfl := List.mem_singleton.1 he
        obtain ⟨d, hd⟩ := Option.ne_none_iff_exists'.1 ((hdraft.keys key).1 hmem)
        obtain ⟨q, -, rfl, -⟩ := hdraft.keyed.docAt_of_schema hkey hd
        have hdeleted : Coordinator.isDeleted (w.store.iterWriteSet t) key = false := hdraft.isDeleted hd
        rw [chainEntry, hdeleted]
        rfl
  · rw [h.schema_chain hdrafts hreg hkey hnil] at he
    exact hreg.live space name i key hkey e he

theorem bounded_step (space name : String) : w'.store.schemaCount space name < 2 ^ 32 := by
  cases h with
  | kept h _ => exact schemaCount_catalog h space name ▸ hreg.bounded space name
  | @collected u hu h _ =>
    have hcount : w'.store.schemaCount space name = u.store.schemaCount space name := schemaCount_catalog h ..
    rw [hcount, schemaCount_catalog hu]
    exact hreg.bounded space name
  | published h =>
    obtain ⟨k, -, hcount, hbound⟩ := h.schemas (hdrafts.active _ _ h.found h.active) hreg space name
    rwa [hcount]

end

theorem staged_step {r : Request} {row' : TxnStateRecord} (hreg : Registry w) (hs : Structured w) (h : CatalogStep env w w')
    (hr : r.numbers w = true) (hpending : PendingStep w w' t row' r) (space name : String) :
    w'.store.Follows row'.snapshotVersion space name ((w'.pendingOf t).versionsOf space name) := by
  have hold : ∀ row, w.store.getTxnState t = some row → row.status = .active →
      row'.snapshotVersion = row.snapshotVersion →
      w'.store.Follows row'.snapshotVersion space name ((w.pendingOf t).versionsOf space name) := by
    intro row hrow hst hsnapshot
    rw [hsnapshot]
    exact h.follows hs.drafts hreg (hs.inv.committable hrow hst).snapshot (hreg.staged t row hrow hst space name)
  cases hpending with
  | begun hpending =>
    rw [hpending]
    exact ⟨_, 0, rfl, hreg.bounded_step hs.drafts h space name, le_rfl, fun _ hk => absurd hk (lt_irrefl 0)⟩
  | kept hrow hst hsnapshot hpending =>
    rw [hpending]
    exact hold _ hrow hst hsnapshot
  | @schema _ row space' name' key body hrow hst hsnapshot hreq _ hcatalog hpending =>
    rw [hpending, PendingTxn.versionsOf_addSchema]
    split
    case isTrue heq =>
      obtain ⟨rfl, rfl⟩ := heq
      have hleft : w.lastVersion t space' name' + 1 < 2 ^ 32 := by
        rcases hreq with rfl | ⟨table, rfl, rfl⟩ <;> exact of_decide_eq_true hr
      rw [nextSchemaVersion_eq, Nat.mod_eq_of_lt hleft]
      rw [World.lastVersion, ← schemaCount_catalog hcatalog] at hleft ⊢
      exact (hold row hrow hst hsnapshot).next hleft
    case isFalse => exact hold row hrow hst hsnapshot
  | upsert hrow hst hsnapshot _ hpending =>
    rw [hpending]
    exact hold _ hrow hst hsnapshot
  | delete hrow hst hsnapshot _ hpending =>
    rw [hpending]
    exact hold _ hrow hst hsnapshot

theorem step {r : Request} (hreg : Registry w) (hs : Structured w) (h : CatalogStep env w w')
    (hr : r.numbers w = true) (hrows : RowsStep env w w' r) : Registry w' where
  bounded := hreg.bounded_step hs.drafts h
  documents _ _ _ _ hkey := hreg.documents_step hs.drafts h hkey
  live _ _ _ _ hkey _ he := hreg.live_step hs.drafts h hkey he
  staged t row hrow hst := hreg.staged_step hs h hr (hrows.pending t row hrow hst)
  named _ _ _ hidx := hreg.named_step hs.drafts h hidx
  idle t row hrow := (hrows.rows t row hrow).idle (hreg.idle t row)
  writers t row space name i key hrow hst hkey hmem := by
    cases hrows.rows t row hrow with
    | kept hold =>
      obtain ⟨e, he, htxn⟩ := hreg.writers t row space name i key hold hst hkey hmem
      rw [h.schema_chain hs.drafts hreg hkey (List.ne_nil_of_mem he)]
      exact ⟨e, he, htxn⟩
    | «open» hopen => rw [hopen] at hst; cases hst
    | aborted haborted => rw [haborted] at hst; cases hst
    | @published row₀ hpub heq =>
      have hmem₀ : key ∈ row₀.writeKeys := by
        rw [heq] at hmem
        exact hmem
      rw [hpub.chains key, if_pos hmem₀]
      exact ⟨_, List.mem_append_right _ (List.mem_singleton_self _), chainEntry_txnId ..⟩

theorem empty : Registry {} where
  bounded space name := by simp [Store.schemaCount, Store.getSchemaIndex]
  documents space name i _ _ := by
    have hcount : Store.schemaCount {} space name = 0 := by simp [Store.schemaCount, Store.getSchemaIndex]
    rw [hcount, if_neg (by omega)]
    simp [Store.readChain, VersionChain.new]
  live _ _ _ _ _ e he := by simp [Store.readChain, VersionChain.new] at he
  staged t row hrow := by simp [Store.getTxnState] at hrow
  named _ _ _ hidx := by simp [Store.getSchemaIndex] at hidx
  idle t row hrow := by simp [Store.getTxnState] at hrow
  writers t row _ _ _ _ hrow := by simp [Store.getTxnState] at hrow

end Registry

end Xtable
