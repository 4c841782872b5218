import Xtable.Theorems.Documents

/-! A structured request leaves the tables of documents as they are, collects garbage from them, or publishes the
    documents of one transaction. -/

namespace Xtable

open Coordinator

variable {env : Env} {w w' : World} {t key : String} {rk : RecordKey} {row : TxnStateRecord}

/-- The tables that hold documents. -/
def Store.catalog (s : Store) : Store :=
  { versionChains := s.versionChains, versions := s.versions, recordIndex := s.recordIndex
    recordVersions := s.recordVersions, schemaIndex := s.schemaIndex, chunkIndex := s.chunkIndex }

theorem catalog_lookup {γ : Type} (F : Store → γ) (hF : ∀ s, F (Store.catalog s) = F s) {s s' : Store}
    (h : s'.catalog = s.catalog) : F s' = F s := by
  rw [← hF s', h, hF]

/-! ## What leaves them alone -/

theorem catalog_staged {body : Bytes} {contentType : Option String} {userMeta : List (String × String)} {deleted : Bool}
    (s : Store) : (s.staged env t key body contentType userMeta deleted row).catalog = s.catalog := by
  unfold Store.staged Store.spilled
  by_cases hkey : key ∈ row.writeKeys <;> by_cases hspill : spillThreshold < body.length <;> simp only [hkey, hspill] <;> rfl

theorem catalog_unregister (s : Store) (snap : Nat) : (s.unregisterSnapshot snap).catalog = s.catalog := by
  have hpin := congrArg Store.catalog (unpinned_unregister s snap)
  exact hpin

theorem catalog_refused (w : World) (reason : String) : (w.refused t row reason).store.catalog = w.store.catalog :=
  catalog_unregister ((w.store.appendWal (.aborted t reason)).2.putTxnState t { row with status := .aborted }) _

theorem catalog_discarded (w : World) (reason : String) : (w.discarded t row reason).store.catalog = w.store.catalog :=
  discarded_frame (fun w => w.store.catalog) (fun _ => rfl) (fun _ => rfl) w reason

theorem catalog_bumped (w : World) : (w.bumped row).store.catalog = w.store.catalog :=
  bumped_frame Store.catalog (fun _ _ => rfl) w

theorem mems_bumped (w : World) : (w.bumped row).mems = w.mems := by
  unfold World.bumped
  split <;> rfl

theorem mems_discarded (w : World) (reason : String) : (w.discarded t row reason).mems = w.mems :=
  discarded_frame World.mems (fun _ => rfl) (fun _ => rfl) w reason

theorem catalog_sweptStale (w : World) (now timeout : Int) : (w.sweptStale now timeout).store.catalog = w.store.catalog :=
  sweptStale_frame (fun w => w.store.catalog) (fun w _ _ => catalog_discarded w) w now timeout

theorem mems_sweptStale (w : World) (now timeout : Int) : (w.sweptStale now timeout).mems = w.mems :=
  sweptStale_frame World.mems (fun w _ _ => mems_discarded w) w now timeout

/-! ## Publications -/

/-- The tables that the hook writes. -/
def Store.indexes (s : Store) : Store :=
  { recordIndex := s.recordIndex, recordVersions := s.recordVersions, schemaIndex := s.schemaIndex }

theorem indexes_indexed (env : Env) (ev : CommitEvent) (taken : PendingTxn) (s : Store) :
    (s.indexed env ev taken).indexes = s.indexes.indexed env ev taken := by
  have hschema : ∀ (s : Store) (p : PendingSchema), s.indexes.indexPendingSchema env ev p =
      (s.indexPendingSchema env ev p).indexes := by
    intro s p
    unfold Store.indexPendingSchema
    split <;> rfl
  have hrecords : taken.records.foldl (Store.indexPendingRecord env ev) s.indexes =
      (taken.records.foldl (Store.indexPendingRecord env ev) s).indexes := List.foldl_hom Store.indexes fun _ _ => rfl
  rw [Store.indexed, Store.indexed, hrecords, List.foldl_hom Store.indexes hschema]

/-- The conditions under which a commit publishes. -/
structure World.Ready (w : World) (t : String) (row : TxnStateRecord) : Prop where
  found : w.store.getTxnState t = some row
  active : row.status = .active
  committable : w.Committable row
  newest : w.store.newerKey row.snapshotVersion row.writeKeys = none

/-- A commit that has published its documents. -/
structure Publication (env : Env) (w : World) (t : String) (row : TxnStateRecord) (w' : World) : Prop extends
    w.Ready t row where
  chains : ∀ k, (w'.store.readChain k).entries = (w.store.readChain k).entries ++
    if k ∈ row.writeKeys then [chainEntry t (w.store.iterWriteSet t) k (w.nextVersion row)] else []
  versions : ∀ k : String, w'.store.versions[k]? =
    if k ∈ row.writeKeys then some (versionRecord t (w.store.iterWriteSet t) k (w.nextVersion row)) else w.store.versions[k]?
  indexes : w'.store.indexes = (w.store.indexed env (commitEvent t row (w.store.iterWriteSet t) (w.nextVersion row))
    (w.pendingOf t)).indexes
  chunks : w'.store.chunkIndex = w.store.chunkIndex
  mems : ∃ aged bodies, w.stagedBodies ∅ (w.store.iterWriteSet t) = .ok bodies ∧
    w'.mems = w.mems.published t (w.nextVersion row) bodies aged (w.store.iterWriteSet t)

theorem Publication.recordVersions_eq (h : Publication env w t row w') : w'.store.recordVersions = (w.store.indexed env
    (commitEvent t row (w.store.iterWriteSet t) (w.nextVersion row)) (w.pendingOf t)).recordVersions :=
  (congrArg Store.recordVersions h.indexes :)

theorem Publication.recordIndex_eq (h : Publication env w t row w') : w'.store.recordIndex = (w.store.indexed env
    (commitEvent t row (w.store.iterWriteSet t) (w.nextVersion row)) (w.pendingOf t)).recordIndex :=
  (congrArg Store.recordIndex h.indexes :)

theorem Publication.schemaIndex_eq (h : Publication env w t row w') : w'.store.schemaIndex = (w.store.indexed env
    (commitEvent t row (w.store.iterWriteSet t) (w.nextVersion row)) (w.pendingOf t)).schemaIndex :=
  (congrArg Store.schemaIndex h.indexes :)

theorem World.Ready.lt_nextVersion (h : w.Ready t row) (hne : row.writeKeys ≠ []) :
    row.snapshotVersion < w.nextVersion row := by
  rw [World.nextVersion, if_neg hne]
  exact Nat.lt_succ_of_le h.committable.snapshot

theorem World.Ready.publication {aged : String → Bool} {bodies : Table String Bytes} (h : w.Ready t row)
    (hbodies : w.stagedBodies ∅ (w.store.iterWriteSet t) = .ok bodies) :
    Publication env w t row
      (((w.claimed t row).bumped row).published env aged t row (w.store.iterWriteSet t) bodies (w.nextVersion row)) := by
  set u := (w.claimed t row).bumped row with hu
  set ws := w.store.iterWriteSet t
  set v := w.nextVersion row
  have hcatalog : u.store.catalog = w.store.catalog := bumped_frame Store.catalog (fun _ _ => rfl) (w.claimed t row)
  have hchain : ∀ k, u.store.readChain k = w.store.readChain k := fun k =>
    catalog_lookup (fun s => s.readChain k) (fun _ => rfl) hcatalog
  have hnewest : u.store.newerKey row.snapshotVersion row.writeKeys = none := by
    have hnone := h.newest
    simp only [Store.newerKey] at hnone ⊢
    simpa only [hchain] using hnone
  have hpend : u.pendingOf t = w.pendingOf t := by
    refine pendingOf_congr ?_
    rw [hu, World.bumped]
    split <;> rfl
  refine ⟨h, fun k => ?_, fun k => ?_, ?_, ?_, aged, bodies, hbodies, ?_⟩
  · rw [published_frame (fun s => (s.readChain k).entries) (fun _ => rfl) (fun _ => rfl) (fun _ => rfl),
      readChain_published h.committable.nodup hnewest h.lt_nextVersion, hchain]
  · rw [published_frame (fun s => s.versions[k]?) (fun _ => rfl) (fun _ => rfl) (fun _ => rfl), versions_published,
      catalog_lookup (fun s => s.versions[k]?) (fun _ => rfl) hcatalog]
  · have hstore := congrArg (fun w : World => w.store.indexes)
      (@unstaged_published env t row ws bodies aged v u)
    have hpin := congrArg Store.indexes (unpinned_unregister ((u.store.published t row ws v).indexed env
      (commitEvent t row ws v) (u.pendingOf t)) row.snapshotVersion)
    have hkeep : (u.store.published t row ws v).indexes = w.store.indexes := by
      have hframe := congrArg Store.indexes (uncommitted_published t row ws v u.store)
      have hsame := congrArg Store.indexes hcatalog
      exact hframe.trans hsame
    have htables : ((u.store.published t row ws v).indexed env (commitEvent t row ws v) (u.pendingOf t)).indexes =
        (w.store.indexed env (commitEvent t row ws v) (w.pendingOf t)).indexes := by
      rw [indexes_indexed, hkeep, hpend, ← indexes_indexed]
    exact Eq.trans hstore (Eq.trans hpin htables)
  · rw [published_frame Store.chunkIndex (fun _ => rfl) (fun _ => rfl) (fun _ => rfl)]
    have hframe := congrArg Store.chunkIndex (uncommitted_published t row ws v u.store)
    have hsame := congrArg Store.chunkIndex hcatalog
    exact hframe.trans hsame
  · rw [mems_published, mems_bumped]
    rfl

/-! ## Requests -/

/-- A structured request on the tables of documents. -/
inductive CatalogStep (env : Env) (w : World) (w' : World) : Prop where
  | kept (h : w'.store.catalog = w.store.catalog) (hmems : w'.mems = w.mems)
  | collected {u : World} (hu : u.store.catalog = w.store.catalog) (h : w'.store.catalog = u.collected.store.catalog)
      (hmems : w'.mems = w.mems)
  | published {t : String} {row : TxnStateRecord} (h : Publication env w t row w')

theorem Commits.catalogStep {aged : String → Bool} {r : Except XtableError Nat} (hinv : Inv True w fun _ => none)
    (h : Commits env aged t w r w') : CatalogStep env w w' := by
  cases h with
  | unknown | settled => exact .kept rfl rfl
  | unstaged | dangerous => exact .kept (catalog_refused _ _) rfl
  | conflict => exact .kept ((catalog_refused _ _).trans (catalog_bumped _)) (mems_bumped _)
  | published hrow hst hbodies _ hkey =>
    exact .published (World.Ready.publication
      ⟨hrow, hst, hinv.committable hrow hst, Store.newerKey_insertionSort hkey⟩ hbodies)

theorem CatalogStep.of_effect {r : Request} (hinv : Inv True w fun _ => none) (h : RequestEffect env w r w') :
    CatalogStep env w w' := by
  cases h with
  | unchanged => exact .kept rfl rfl
  | call hc =>
    cases hc with
    | unchanged | begin => exact .kept rfl rfl
    | stage => exact .kept (catalog_staged _) rfl
    | @read t key _ _ row =>
      refine .kept ?_ rfl
      unfold World.noteRead
      split <;> rfl
    | heartbeat => exact .kept rfl rfl
    | commit hc => exact hc.catalogStep hinv
    | abort => exact .kept (catalog_discarded _ _) (mems_discarded w "explicit abort")
    | sweepStale => exact .kept (catalog_sweptStale ..) (mems_sweptStale ..)
    | sweep => exact .collected (catalog_sweptStale ..) rfl (mems_sweptStale ..)
  | schema | upsert | delete => exact .kept (catalog_staged _) rfl
  | commitFails hc => exact hc.catalogStep hinv
  | commit hc =>
    cases hc.catalogStep hinv with
    | kept h hmems => exact .kept h hmems
    | collected hu h hmems => exact .collected hu h hmems
    | published h => exact .published ⟨h.toReady, h.chains, h.versions, h.indexes, h.chunks, h.mems⟩
  | abort => exact .kept (catalog_discarded _ _) (mems_discarded w "explicit abort")
  | abortFails => exact .kept rfl rfl

/-! ## Rows and pending entries -/

/-- How a structured request leaves the row of a transaction. -/
inductive RowStep (env : Env) (w w' : World) (t : String) (row' : TxnStateRecord) : Prop where
  | kept (h : w.store.getTxnState t = some row')
  | open (h : row'.status = .active)
  | aborted (h : row'.status = .aborted)
  | published {row : TxnStateRecord} (h : Publication env w t row w')
      (heq : row' = { row.withAlloc (w.nextVersion row) with status := .committed })

/-- What becomes of the pending documents of a transaction that is active afterwards. -/
inductive PendingStep (w w' : World) (t : String) (row' : TxnStateRecord) : Request → Prop where
  | begun {r : Request} (hpending : w'.pendingOf t = {}) (hsnapshot : row'.snapshotVersion = w.store.globalVersion) :
      PendingStep w w' t row' r
  | kept {r : Request} {row : TxnStateRecord} (hrow : w.store.getTxnState t = some row) (hst : row.status = .active)
      (hsnapshot : row'.snapshotVersion = row.snapshotVersion) (hpending : w'.pendingOf t = w.pendingOf t) :
      PendingStep w w' t row' r
  | schema {r : Request} {row : TxnStateRecord} {space name key : String} {body : Value}
      (hrow : w.store.getTxnState t = some row) (hst : row.status = .active)
      (hsnapshot : row'.snapshotVersion = row.snapshotVersion)
      (hreq : r = .registerSchema t space name body ∨ ∃ table, name = "_table::" ++ table ∧ r = .bindTableSchema t space table body)
      (hkey : schemaKey space name (w.nextSchemaVersion t space name) = .ok key)
      (hcatalog : w'.store.catalog = w.store.catalog)
      (hpending : w'.pendingOf t =
        (w.pendingOf t).addSchema ⟨space, name, w.nextSchemaVersion t space name, body, key⟩) :
      PendingStep w w' t row' r
  | upsert {row : TxnStateRecord} {space table recordId key : String} {schemaVersion : Option Nat} {body : Value}
      (hrow : w.store.getTxnState t = some row) (hst : row.status = .active)
      (hsnapshot : row'.snapshotVersion = row.snapshotVersion) (hkey : recordKey space table recordId = .ok key)
      (hpending : w'.pendingOf t =
        (w.pendingOf t).addRecord ⟨space, table, recordId, schemaVersion.getD 0, body, false, key⟩) :
      PendingStep w w' t row' (.upsertRecord t space table recordId schemaVersion body)
  | delete {row : TxnStateRecord} {space table recordId key : String} {schemaVersion : Nat}
      (hrow : w.store.getTxnState t = some row) (hst : row.status = .active)
      (hsnapshot : row'.snapshotVersion = row.snapshotVersion) (hkey : recordKey space table recordId = .ok key)
      (hpending : w'.pendingOf t =
        (w.pendingOf t).addRecord ⟨space, table, recordId, schemaVersion, .null, true, key⟩) :
      PendingStep w w' t row' (.deleteRecord t space table recordId)

/-- The rows and pending documents after a structured request; rows that are settled stay. -/
structure RowsStep (env : Env) (w w' : World) (r : Request) : Prop where
  rows : ∀ t row', w'.store.getTxnState t = some row' → RowStep env w w' t row'
  settled : ∀ t row, w.store.getTxnState t = some row → row.status ≠ .active → w'.store.getTxnState t = some row
  pending : ∀ t row', w'.store.getTxnState t = some row' → row'.status = .active → PendingStep w w' t row' r

section RowsStep

variable {r : Request}

theorem RowsStep.refl : RowsStep env w w r :=
  ⟨fun _ _ hrow => .kept hrow, fun _ _ hrow _ => hrow, fun _ _ hrow hst => .kept hrow hst rfl rfl⟩

theorem RowsStep.own (hfoot : Footprint t w w') (hrow : ∀ row, w.store.getTxnState t = some row → row.status = .active)
    (hrows : ∀ row', w'.store.getTxnState t = some row' → RowStep env w w' t row')
    (hpending : ∀ row', w'.store.getTxnState t = some row' → row'.status = .active → PendingStep w w' t row' r) :
    RowsStep env w w' r := by
  refine ⟨fun t' row' hrow' => ?_, fun t' row' hrow' hst => ?_, fun t' row' hrow' hst => ?_⟩
  · by_cases ht : t = t'
    · subst ht
      exact hrows row' hrow'
    · exact .kept ((hfoot.rows t' ht).symm.trans hrow')
  · by_cases ht : t = t'
    · subst ht
      exact absurd (hrow row' hrow') hst
    · exact (hfoot.rows t' ht).trans hrow'
  · by_cases ht : t = t'
    · subst ht
      exact hpending row' hrow' hst
    · exact .kept ((hfoot.rows t' ht).symm.trans hrow') hst rfl (pendingOf_congr (hfoot.pending t' ht))

section

variable (hfoot : Footprint t w w') (hrow : w.store.getTxnState t = some row) (hst : row.status = .active)
  (hrow' : w'.store.getTxnState t = some row')

include hfoot hrow hst hrow'

theorem RowsStep.settle (hst' : row'.status ≠ .active)
    (hrows : RowStep env w w' t row') : RowsStep env w w' r := by
  refine .own hfoot (fun row₁ hrow₁ => ?_) (fun row₁ hrow₁ => ?_) fun row₁ hrow₁ hst₁ => ?_
  · cases hrow.symm.trans hrow₁
    exact hst
  · cases hrow'.symm.trans hrow₁
    exact hrows
  · cases hrow'.symm.trans hrow₁
    exact absurd hst₁ hst'

theorem RowsStep.touch (hst' : row'.status = .active)
    (hpending : PendingStep w w' t row' r) : RowsStep env w w' r := by
  refine .own hfoot (fun row₁ hrow₁ => ?_) (fun row₁ hrow₁ => ?_) fun row₁ hrow₁ hst₁ => ?_
  · cases hrow.symm.trans hrow₁
    exact hst
  · cases hrow'.symm.trans hrow₁
    exact .open hst'
  · cases hrow'.symm.trans hrow₁
    exact hpending

end

theorem Commits.rowsStep {aged : String → Bool} {x : Except XtableError Nat} (hinv : Inv True w fun _ => none)
    (h : Commits env aged t w x w') : RowsStep env w w' r := by
  have hfoot := h.footprint.1
  cases h with
  | unknown | settled => exact .refl
  | unstaged hrow hst | dangerous hrow hst =>
    exact .settle hfoot hrow hst ((txnState_refused ..).trans (if_pos rfl)) (by simp) (.aborted rfl)
  | conflict hrow hst =>
    exact .settle hfoot hrow hst ((txnState_refused ..).trans (if_pos rfl)) (by simp) (.aborted rfl)
  | @published row bodies hrow hst hbodies _ hkey =>
    exact .settle hfoot hrow hst ((txnState_committed w t).trans (if_pos rfl)) (by simp) (.published (World.Ready.publication
      ⟨hrow, hst, hinv.committable hrow hst, Store.newerKey_insertionSort hkey⟩ hbodies) rfl)

theorem rows_sweptStale (w : World) (now timeout : Int) : (w.sweptStale now timeout).pending = w.pending ∧
    ∀ t, (w.sweptStale now timeout).store.getTxnState t = w.store.getTxnState t ∨
      ∃ row row', w.store.getTxnState t = some row ∧ row.status = .active ∧
        (w.sweptStale now timeout).store.getTxnState t = some row' ∧ row'.status = .aborted := by
  refine sweptStale_keeps (P := fun u => u.pending = w.pending ∧ ∀ t, u.store.getTxnState t = w.store.getTxnState t ∨
    ∃ row row', w.store.getTxnState t = some row ∧ row.status = .active ∧ u.store.getTxnState t = some row' ∧
      row'.status = .aborted) ?_ ⟨rfl, fun _ => .inl rfl⟩ now timeout
  rintro u t₀ row ⟨hpending, hrows⟩ hrow hst
  refine ⟨(pending_discarded u _).trans hpending, fun t => ?_⟩
  rw [txnState_discarded]
  split
  case isFalse => exact hrows t
  case isTrue ht =>
    subst ht
    -- what the sweep has aborted it does not abort again
    rcases hrows t₀ with hsame | ⟨_, row', -, -, hrow', hst'⟩
    · exact .inr ⟨row, _, hsame.symm.trans hrow, hst, rfl, rfl⟩
    · cases hrow.symm.trans hrow'
      rw [hst'] at hst
      cases hst

theorem RowsStep.of_sweep {u : World} {now timeout : Int} (hstore : ∀ t, u.store.getTxnState t = (w.sweptStale now timeout).store.getTxnState t)
    (hpending : u.pending = (w.sweptStale now timeout).pending) : RowsStep env w u r := by
  obtain ⟨hkeep, hrows⟩ := rows_sweptStale w now timeout
  refine ⟨fun t row' hrow' => ?_, fun t row hrow hst => ?_, fun t row' hrow' hst => ?_⟩
  · rw [hstore] at hrow'
    rcases hrows t with hsame | ⟨-, row₁, -, -, hrow₁, hst₁⟩
    · exact .kept (hsame.symm.trans hrow')
    · cases hrow₁.symm.trans hrow'
      exact .aborted hst₁
  · rw [hstore]
    rcases hrows t with hsame | ⟨row₁, -, hrow₁, hst₁, -, -⟩
    · exact hsame.trans hrow
    · cases hrow₁.symm.trans hrow
      exact absurd hst₁ hst
  · rw [hstore] at hrow'
    rcases hrows t with hsame | ⟨-, row₁, -, -, hrow₁, hst₁⟩
    · exact .kept (hsame.symm.trans hrow') hst rfl (pendingOf_congr (by rw [hpending, hkeep]))
    · cases hrow₁.symm.trans hrow'
      rw [hst₁] at hst
      cases hst

theorem RowsStep.unpend (h : RowsStep env w w' r) (hinactive : ∀ row, w'.store.getTxnState t = some row → row.status ≠ .active) :
    RowsStep env w (w'.unpend t) r := by
  refine ⟨fun t' row' hrow' => ?_, h.settled, fun t' row' hrow' hst => ?_⟩
  · cases h.rows t' row' hrow' with
    | kept h => exact .kept h
    | «open» h => exact .open h
    | aborted h => exact .aborted h
    | published h heq => exact .published ⟨h.toReady, h.chains, h.versions, h.indexes, h.chunks, h.mems⟩ heq
  · have ht : t ≠ t' := by
      rintro rfl
      exact hinactive row' hrow' hst
    have hpend : (w'.unpend t).pendingOf t' = w'.pendingOf t' := pendingOf_congr (by simp [World.unpend, ht])
    cases h.pending t' row' hrow' hst with
    | begun hp hs => exact .begun (hpend.trans hp) hs
    | kept h₁ h₂ h₃ hp => exact .kept h₁ h₂ h₃ (hpend.trans hp)
    | schema h₁ h₂ h₃ h₄ h₅ h₆ hp => exact .schema h₁ h₂ h₃ h₄ h₅ h₆ (hpend.trans hp)
    | upsert h₁ h₂ h₃ h₄ hp => exact .upsert h₁ h₂ h₃ h₄ (hpend.trans hp)
    | delete h₁ h₂ h₃ h₄ hp => exact .delete h₁ h₂ h₃ h₄ (hpend.trans hp)

theorem Footprint.noted {body : Bytes} {contentType : Option String} {userMeta : List (String × String)} {deleted : Bool}
    {p : PendingTxn} (hrow : w.store.getTxnState t = some row) :
    Footprint t w { w.staged env t key body contentType userMeta deleted row with pending := w.pending.insert t p } := by
  refine ⟨fun t' ht => (txnState_staged hrow t').trans (if_neg ht), fun t' k ht => ?_, fun t' ht => ?_⟩
  · have hset : (w.store.staged env t key body contentType userMeta deleted row).writeSet = _ := writeSet_staged w.store
    simp only [World.staged]
    rw [hset, Table.get_insert, if_neg (by simp [ht])]
  · simp [ht]

theorem withWriteKey_snapshotVersion (row : TxnStateRecord) (key : String) :
    (row.withWriteKey key).snapshotVersion = row.snapshotVersion := by
  unfold TxnStateRecord.withWriteKey
  split <;> rfl

theorem RowsStep.of_effect (hinv : Inv True w fun _ => none) (hdrafts : Drafts w) (hr : r.structured = true)
    (h : RequestEffect env w r w') : RowsStep env w w' r := by
  cases h with
  | unchanged => exact .refl
  | call hc =>
    cases hc with
    | unchanged => exact .refl
    | @begin t idem now hrow =>
      have hrows : ∀ t', (w.begun t idem now).store.getTxnState t' = _ := txnState_begun
      refine .own ⟨fun t' ht => (hrows t').trans (if_neg ht), fun _ _ _ => rfl, fun _ _ => rfl⟩ (fun row hrow' => ?_)
        (fun row' hrow' => ?_) fun row' hrow' _ => ?_
      · rw [hrow] at hrow'
        cases hrow'
      · cases ((hrows t).trans (if_pos rfl)).symm.trans hrow'
        exact .open rfl
      · cases ((hrows t).trans (if_pos rfl)).symm.trans hrow'
        exact .begun (by simp [World.pendingOf, World.begun, (hdrafts.fresh t hrow).1]) rfl
    | stage | commit | abort => cases hr
    | read hrow hst =>
      rw [noteRead_eq hrow]
      exact .touch ⟨fun t' ht => (txnState_put _ _ _ t').trans (if_neg ht), fun _ _ _ => rfl, fun _ _ => rfl⟩ hrow hst
        ((txnState_put ..).trans (if_pos rfl)) (by simp [hst]) (.kept hrow hst (by simp) rfl)
    | heartbeat hrow hst =>
      exact .touch ⟨fun t' ht => (txnState_put _ _ _ t').trans (if_neg ht), fun _ _ _ => rfl, fun _ _ => rfl⟩ hrow hst
        ((txnState_put ..).trans (if_pos rfl)) hst (.kept hrow hst rfl rfl)
    | sweepStale => exact .of_sweep (fun _ => rfl) rfl
    | @sweep now timeout => exact @RowsStep.of_sweep env w _ _ now timeout (fun _ => rfl) rfl
  | schema hreq hkey hrow hst =>
    exact .touch (.noted hrow) hrow hst ((txnState_staged hrow _).trans (if_pos rfl)) (by simp [hst])
      (.schema hrow hst (withWriteKey_snapshotVersion ..) hreq hkey (catalog_staged _)
        (by simp [World.pendingOf, World.pendSchema, World.staged]))
  | upsert hkey hrow hst =>
    exact .touch (.noted hrow) hrow hst ((txnState_staged hrow _).trans (if_pos rfl)) (by simp [hst])
      (.upsert hrow hst (withWriteKey_snapshotVersion ..) hkey (by simp [World.pendingOf, World.pendRecord, World.staged]))
  | @delete t space table recordId key cur row _ hkey hrow hst =>
    have hpending : ((w.staged env t key [] (some "application/json") [] true row).pendRecord t
        ⟨space, table, recordId, cur.schemaVersion, .null, true, key⟩).pendingOf t =
        (w.pendingOf t).addRecord ⟨space, table, recordId, cur.schemaVersion, .null, true, key⟩ := by
      simp [World.pendingOf, World.pendRecord, World.staged]
    exact .touch (.noted hrow) hrow hst ((txnState_staged hrow _).trans (if_pos rfl)) (by simp [hst])
      (.delete hrow hst (withWriteKey_snapshotVersion ..) hkey hpending)
  | commitFails hc => exact hc.rowsStep hinv
  | commit hc => exact (hc.rowsStep hinv).unpend hc.footprint.2
  | @abort t row hrow hst =>
    have hfoot := Footprint.discarded w t row "explicit abort"
    refine .settle (t := t) ⟨hfoot.rows, hfoot.writes, fun t' ht => ?_⟩ hrow hst ((txnState_discarded ..).trans (if_pos rfl))
      (by simp) (.aborted rfl)
    rw [← hfoot.pending t' ht]
    simp [World.unpend, World.forget, ht]
  | abortFails hinactive => exact RowsStep.refl.unpend hinactive

end RowsStep

end Xtable
