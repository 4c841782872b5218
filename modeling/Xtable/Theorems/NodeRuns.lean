import Xtable.Theorems.Refiled

/-! Runs of a server with its flush loop. A step is a structured request, or it moves documents between the layers;
    the invariants of the structured layer hold along such runs. -/

namespace Xtable

open Coordinator

variable {env : Env} {c : Codecs} {w w' : World} {space name : String} {test : MemTableSet → RecordKey → Bool}

/-- What a step amounts to. -/
inductive NodeStep (env : Env) (c : Codecs) (w : World) : NodeOp → World → Prop where
  | request {r : Request} {w' : World} (hr : r.structured = true) (hstep : r.step env w = some w') :
    NodeStep env c w (.request r) w'
  | rotate : NodeStep env c w .rotate w.rotate
  | flush {op : NodeOp} {w' : World} (h : FlushStep c w w') : NodeStep env c w op w'

theorem World.failedFlush_zero {chunkId : String} {nowMs : Int64} {entries : List MemEntry}
    (h : w.failedFlush c chunkId nowMs entries 0 = some w') :
    ∃ mt rest, w.mems.flushing = mt :: rest ∧ w' = w.dequeued (rest ++ [mt]) := by
  unfold World.failedFlush at h
  cases hqueue : w.mems.flushing with
  | nil => simp [hqueue] at h
  | cons mt rest =>
    refine ⟨mt, rest, rfl, ?_⟩
    simp only [hqueue] at h
    split at h
    case isFalse => cases h
    case isTrue =>
      cases h
      cases Flush.flushOne c chunkId nowMs entries mt <;> rfl

theorem FlushStep.of_failedFlush {chunkId : String} {nowMs : Int64} {entries : List MemEntry}
    (h : w.failedFlush c chunkId nowMs entries 0 = some w') : FlushStep c w w' := by
  obtain ⟨mt, rest, hqueue, rfl⟩ := World.failedFlush_zero h
  exact .requeued hqueue

theorem NodeStep.of_step {op : NodeOp} (hop : op.whole = true) (h : op.step env c w = some w') :
    NodeStep env c w op w' := by
  cases op with
  | request r => exact .request hop h
  | rotate =>
    cases h
    exact .rotate
  | flush => exact .flush (.of_flush h)
  | failedFlush chunkId nowMs entries n =>
    obtain rfl : n = 0 := by simpa [NodeOp.whole] using hop
    exact .flush (.of_failedFlush h)

/-! ## Requests -/

/-- What a structured request does to the documents and the memtables. -/
inductive ServerStep (env : Env) (w : World) (r : Request) (w' : World) : Prop where
  | kept (hcatalog : w'.store.catalog = w.store.catalog) (hmems : w'.mems = w.mems)
  | swept {now timeout : Int} (hreq : r = .call (.sweep now timeout)) (hmems : w'.mems = w.mems)
  | published {t : String} {aged : String → Bool} {row : TxnStateRecord} {bodies : Table String Bytes}
      (hreq : r = .commitTxn t aged) (hpub : Publication env w t row w')
      (hbodies : w.stagedBodies ∅ (w.store.iterWriteSet t) = .ok bodies)
      (hmems : w'.mems = w.mems.published t (w.nextVersion row) bodies aged (w.store.iterWriteSet t))

theorem ServerStep.of_commits {t : String} {aged : String → Bool} {x : Except XtableError Nat} (hinv : Inv True w fun _ => none)
    (h : Commits env aged t w x w') : ServerStep env w (.commitTxn t aged) w' := by
  cases h with
  | unknown | settled => exact .kept rfl rfl
  | unstaged | dangerous => exact .kept (catalog_refused _ _) rfl
  | conflict => exact .kept ((catalog_refused _ _).trans (catalog_bumped _)) (mems_bumped _)
  | published hrow hst hbodies _ hkey =>
    refine .published rfl (World.Ready.publication
      ⟨hrow, hst, hinv.committable hrow hst, Store.newerKey_insertionSort hkey⟩ hbodies) hbodies ?_
    rw [mems_published, mems_bumped]
    rfl

theorem ServerStep.of_effect {r : Request} (hinv : Inv True w fun _ => none) (hr : r.structured = true)
    (h : RequestEffect env w r w') : ServerStep env w r w' := by
  cases h with
  | unchanged => exact .kept rfl rfl
  | call hc =>
    cases hc with
    | stage | commit | abort => cases hr
    | sweep => exact .swept rfl (mems_sweptStale ..)
    | unchanged | begin => exact .kept rfl rfl
    | read =>
      refine .kept ?_ rfl
      unfold World.noteRead
      split <;> rfl
    | heartbeat => exact .kept rfl rfl
    | sweepStale => exact .kept (catalog_sweptStale ..) (mems_sweptStale ..)
  | schema | upsert | delete => exact .kept (catalog_staged _) rfl
  | commitFails hc => exact .of_commits hinv hc
  | commit hc =>
    cases ServerStep.of_commits hinv hc with
    | kept hcatalog hmems => exact .kept hcatalog hmems
    | swept hreq => cases hreq
    | published hreq hpub hbodies hmems =>
      exact .published hreq ⟨hpub.toReady, hpub.chains, hpub.versions, hpub.indexes, hpub.chunks, hpub.mems⟩ hbodies hmems
  | abort => exact .kept (catalog_discarded _ _) (mems_discarded w "explicit abort")
  | abortFails => exact .kept rfl rfl

theorem bucket_bumped {row : TxnStateRecord} (w : World) : (w.bumped row).bucket = w.bucket := by
  unfold World.bumped
  split <;> rfl

theorem bucket_discarded {t : String} {row : TxnStateRecord} (w : World) (reason : String) :
    (w.discarded t row reason).bucket = w.bucket :=
  discarded_frame World.bucket (fun _ => rfl) (fun _ => rfl) w reason

theorem bucket_sweptStale (w : World) (now timeout : Int) : (w.sweptStale now timeout).bucket = w.bucket :=
  sweptStale_frame World.bucket (fun w _ _ => bucket_discarded w) w now timeout

theorem Commits.bucket {t : String} {aged : String → Bool} {x : Except XtableError Nat} (h : Commits env aged t w x w') :
    w'.bucket = w.bucket := by
  cases h with
  | unknown | settled | unstaged | dangerous => rfl
  | conflict => exact bucket_bumped _
  | published => exact (congrArg World.bucket (unstaged_published _)).trans (bucket_bumped _)

theorem RequestEffect.bucket {r : Request} (h : RequestEffect env w r w') : w'.bucket = w.bucket := by
  cases h with
  | unchanged | schema | upsert | delete | abortFails => rfl
  | call hc =>
    cases hc with
    | unchanged | begin | stage | heartbeat => rfl
    | read =>
      unfold World.noteRead
      split <;> rfl
    | commit hc => exact hc.bucket
    | abort => exact bucket_discarded w "explicit abort"
    | sweepStale | sweep => exact bucket_sweptStale ..
  | commitFails hc | commit hc => exact hc.bucket
  | abort => exact bucket_discarded w "explicit abort"

/-! ## Invariants -/

/-- The first version of a schema is there as soon as any is: committed if the schema is indexed, staged by every
transaction that has staged a version of one that is not. -/
structure Opened (w : World) : Prop where
  first : ∀ space name, w.store.getSchemaIndex space name ≠ none → w.store.SchemaCommitted space name 1
  indexed : ∀ space name i, w.store.SchemaCommitted space name i → w.store.getSchemaIndex space name ≠ none
  staged : ∀ t row, w.store.getTxnState t = some row → row.status = .active → ∀ space name,
    (w.pendingOf t).versionsOf space name ≠ [] →
      w.store.getSchemaIndex space name ≠ none ∨ 1 ∈ (w.pendingOf t).versionsOf space name

section Publications

variable {t : String} {row : TxnStateRecord}

theorem Publication.schemaIndex_iff (h : Publication env w t row w') (hdraft : Draft w t row) (space name : String) :
    w'.store.getSchemaIndex space name ≠ none ↔
      w.store.getSchemaIndex space name ≠ none ∨ (w.pendingOf t).versionsOf space name ≠ [] := by
  rw [Store.getSchemaIndex, h.schemaIndex_eq, Store.indexed_eq hdraft.keyed]
  simp only [Table.get_insertAll, ← List.map_reverse, List.find?_map, Function.comp_def, PendingSchema.indexRow,
    PendingTxn.versionsOf, Store.getSchemaIndex, Prod.mk.injEq, ne_eq, List.map_eq_nil_iff]
  cases hfind : (w.pendingOf t).schemas.reverse.find? fun q => decide (q.space = space ∧ q.name = name) with
  | none =>
    have hnone : (w.pendingOf t).schemas.filter (fun q => decide (q.space = space) && decide (q.name = name)) = [] := by
      simpa [List.filter_eq_nil_iff, List.find?_eq_none] using hfind
    simp [hnone]
  | some q =>
    have hq : q ∈ (w.pendingOf t).schemas.filter fun q => decide (q.space = space) && decide (q.name = name) :=
      List.mem_filter.2 ⟨List.mem_reverse.1 (List.mem_of_find?_eq_some hfind), by simpa using List.find?_some hfind⟩
    simp [List.ne_nil_of_mem hq]

theorem Publication.schemaCommitted_iff (h : Publication env w t row w') (hdraft : Draft w t row) (space name : String) (i : Nat) :
    w'.store.SchemaCommitted space name i ↔
      w.store.SchemaCommitted space name i ∨ i ∈ (w.pendingOf t).versionsOf space name := by
  have hkeys : ∀ key, schemaKey space name i = .ok key →
      (key ∈ row.writeKeys ↔ i ∈ (w.pendingOf t).versionsOf space name) := fun key hkey => by
    rw [hdraft.keys, hdraft.keyed.docAt_schema hkey]
  constructor
  · rintro ⟨key, hkey, hne⟩
    rw [h.chains key] at hne
    split at hne
    case isTrue hmem => exact .inr ((hkeys key hkey).1 hmem)
    case isFalse => exact .inl ⟨key, hkey, by simpa using hne⟩
  · rintro (⟨key, hkey, hne⟩ | hmem)
    · refine ⟨key, hkey, ?_⟩
      rw [h.chains key]
      exact List.append_ne_nil_of_left_ne_nil hne _
    · obtain ⟨q, hq, rfl, rfl, rfl⟩ := PendingTxn.mem_versionsOf.1 hmem
      have hkey := hdraft.keyed.schemas q hq
      refine ⟨_, hkey, ?_⟩
      rw [h.chains, if_pos ((hkeys _ hkey).2 hmem)]
      simp

end Publications

theorem CatalogStep.grows {P : Store → Prop} {Q : String → Prop} (h : CatalogStep env w w')
    (hcatalog : ∀ s s' : Store, s'.catalog = s.catalog → (P s' ↔ P s)) (hcollected : ∀ u : World, P u.collected.store ↔ P u.store)
    (hpub : ∀ t row, Publication env w t row w' → (P w'.store ↔ P w.store ∨ Q t)) :
    P w'.store ↔ P w.store ∨ ∃ t row, Publication env w t row w' ∧ Q t := by
  have hadded : (∃ t row, Publication env w t row w' ∧ Q t) → P w'.store := by
    rintro ⟨t, row, h, hq⟩
    exact (hpub t row h).2 (.inr hq)
  have hsame : (P w'.store ↔ P w.store) → (P w'.store ↔ P w.store ∨ ∃ t row, Publication env w t row w' ∧ Q t) :=
    fun hsame => ⟨fun hp => .inl (hsame.1 hp), fun hp => hp.elim hsame.2 hadded⟩
  cases h with
  | kept h _ => exact hsame (hcatalog _ _ h)
  | collected hu h _ => exact hsame ((hcatalog _ _ h).trans ((hcollected _).trans (hcatalog _ _ hu)))
  | @published t row h =>
    exact ⟨fun hp => ((hpub t row h).1 hp).imp_right fun hq => ⟨t, row, h, hq⟩, fun hp => hp.elim (fun hp => (hpub t row h).2 (.inl hp)) hadded⟩

theorem CatalogStep.schemaIndex_iff (hdrafts : Drafts w) (h : CatalogStep env w w') (space name : String) :
    w'.store.getSchemaIndex space name ≠ none ↔ w.store.getSchemaIndex space name ≠ none ∨
      ∃ t row, Publication env w t row w' ∧ (w.pendingOf t).versionsOf space name ≠ [] := by
  refine h.grows (P := fun s => s.getSchemaIndex space name ≠ none) (fun s s' hs => ?_) (fun _ => Iff.rfl) fun t row h =>
    h.schemaIndex_iff (hdrafts.active t row h.found h.active) space name
  rw [catalog_lookup (fun s => s.getSchemaIndex space name) (fun _ => rfl) hs]

theorem CatalogStep.schemaCommitted_iff (hdrafts : Drafts w) (h : CatalogStep env w w') (space name : String) (i : Nat) :
    w'.store.SchemaCommitted space name i ↔ w.store.SchemaCommitted space name i ∨
      ∃ t row, Publication env w t row w' ∧ i ∈ (w.pendingOf t).versionsOf space name := by
  refine h.grows (P := fun s => s.SchemaCommitted space name i) (fun s s' hs => ?_) (fun u => ?_) fun t row h =>
    h.schemaCommitted_iff (hdrafts.active t row h.found h.active) space name i
  · simp only [Store.SchemaCommitted, readChain_catalog hs]
  · refine exists_congr fun key => and_congr_right fun _ => not_congr ?_
    have hprune : u.collected.store.readChain key = _ := u.store.readChain_gc none key
    rw [hprune, VersionChain.pruneBelow_eq_nil_iff]

namespace Opened

theorem empty : Opened {} where
  first space name h := by simp [Store.getSchemaIndex] at h
  indexed space name i h := by
    obtain ⟨key, -, hne⟩ := h
    simp [Store.readChain, VersionChain.new] at hne
  staged t row hrow := by simp [Store.getTxnState] at hrow

theorem step {r : Request} (h : Opened w) (hs : Structured w) (hcatalog : CatalogStep env w w') (hrows : RowsStep env w w' r) :
    Opened w' where
  first space name hidx := by
    rw [hcatalog.schemaCommitted_iff hs.drafts]
    rcases (hcatalog.schemaIndex_iff hs.drafts space name).1 hidx with hold | ⟨t, row, hpub, hne⟩
    · exact .inl (h.first space name hold)
    · rcases h.staged t row hpub.found hpub.active space name hne with hold | hone
      · exact .inl (h.first space name hold)
      · exact .inr ⟨t, row, hpub, hone⟩
  indexed space name i hi := by
    rw [hcatalog.schemaIndex_iff hs.drafts]
    rcases (hcatalog.schemaCommitted_iff hs.drafts space name i).1 hi with hold | ⟨t, row, hpub, hmem⟩
    · exact .inl (h.indexed space name i hold)
    · exact .inr ⟨t, row, hpub, List.ne_nil_of_mem hmem⟩
  staged t row' hrow' hst' space name hne := by
    have hkept : ∀ row, w.store.getTxnState t = some row → row.status = .active →
        (w.pendingOf t).versionsOf space name ≠ [] →
        w'.store.getSchemaIndex space name ≠ none ∨ 1 ∈ (w.pendingOf t).versionsOf space name := by
      intro row hrow hst hne
      refine (h.staged t row hrow hst space name hne).imp_left fun hold => ?_
      exact (hcatalog.schemaIndex_iff hs.drafts space name).2 (.inl hold)
    cases hrows.pending t row' hrow' hst' with
    | begun hpending =>
      rw [hpending] at hne
      exact absurd rfl hne
    | kept hrow hst _ hpending | upsert hrow hst _ _ hpending | delete hrow hst _ _ hpending =>
      rw [hpending] at hne ⊢
      exact hkept _ hrow hst hne
    | @schema _ row space' name' key body hrow hst _ _ _ _ hpending =>
      rw [hpending, PendingTxn.versionsOf_addSchema] at hne ⊢
      split
      case isFalse hother =>
        rw [if_neg hother] at hne
        exact hkept row hrow hst hne
      case isTrue heq =>
        obtain ⟨rfl, rfl⟩ := heq
        by_cases hnil : (w.pendingOf t).versionsOf space' name' = []
        · by_cases hidx : w.store.getSchemaIndex space' name' = none
          · -- the first registration of the name
            have hone : w.nextSchemaVersion t space' name' = 1 := by
              rw [nextSchemaVersion_eq, World.lastVersion, hnil, Store.schemaCount, hidx]
              rfl
            simp [hone]
          · exact .inl ((hcatalog.schemaIndex_iff hs.drafts space' name').2 (.inl hidx))
        · exact (hkept row hrow hst hnil).imp_right fun hone => List.mem_append_left _ hone

theorem refiled (h : Opened w) (hfiled : Refiled w w') : Opened w' where
  first space name hidx := by
    rw [hfiled.lookup (fun s => s.getSchemaIndex space name) fun _ => rfl] at hidx
    exact (hfiled.lookup (fun s => s.SchemaCommitted space name 1) fun _ => rfl) ▸ h.first space name hidx
  indexed space name i hi := by
    rw [hfiled.lookup (fun s => s.SchemaCommitted space name i) fun _ => rfl] at hi
    rw [hfiled.lookup (fun s => s.getSchemaIndex space name) fun _ => rfl]
    exact h.indexed space name i hi
  staged t row hrow hst space name hne := by
    rw [hfiled.getTxnState] at hrow
    rw [hfiled.pendingOf] at hne ⊢
    rw [hfiled.lookup (fun s => s.getSchemaIndex space name) fun _ => rfl]
    exact h.staged t row hrow hst space name hne

end Opened

/-- What holds between the steps of a server. -/
structure Orderly (w : World) : Prop where
  structured : Structured w
  opened : Opened w
  idle : ∀ t row, w.store.getTxnState t = some row → row.status ≠ .committing

namespace Orderly

theorem empty : Orderly {} where
  structured := .empty
  opened := .empty
  idle t row hrow := by simp [Store.getTxnState] at hrow

theorem refiled (h : Orderly w) (hfiled : Refiled w w') : Orderly w' where
  structured := hfiled.structured h.idle h.structured
  opened := h.opened.refiled hfiled
  idle t row hrow := h.idle t row (hfiled.getTxnState t ▸ hrow)

theorem step {op : NodeOp} (h : Orderly w) (hstep : NodeStep env c w op w') : Orderly w' := by
  cases hstep with
  | request hr hstep =>
    obtain ⟨hstructured, -, hcatalog, hrows⟩ := h.structured.step hr hstep
    refine ⟨hstructured, h.opened.step h.structured hcatalog hrows, fun t row hrow => ?_⟩
    exact (hrows.rows t row hrow).idle (h.idle t row)
  | rotate => exact h.refiled (.rotate w)
  | flush hflush => exact h.refiled (.flush hflush)

theorem of_run {hist : List (World × NodeOp × World)} (hrun : Run (NodeOp.step env c) {} hist w)
    (hcond : ∀ x ∈ hist, x.2.1.whole = true) : Orderly w :=
  (hrun.invariant (I := Orderly) (C := fun _ (op : NodeOp) => op.whole = true) .empty
    (fun _ _ _ hu hop hstep => hu.step (.of_step hop hstep)) hcond).1

end Orderly

/-! ## Puts -/

section Puts

variable {t : String} {v : Nat} {bodies : Table String Bytes} {aged : String → Bool}

/-- Every put of a commit passes a test of the memtables it finds and its key. -/
def MemTableSet.eachPut (test : MemTableSet → RecordKey → Bool) (t : String) (v : Nat) (bodies : Table String Bytes)
    (aged : String → Bool) : MemTableSet → WriteSet → Bool
  | _, [] => true
  | m, x :: rest => test m (memKey x.1) &&
      eachPut test t v bodies aged ((m.putInvisible (memEntry t v bodies x.1 x.2) (aged x.1)).publish (memKey x.1) v) rest

/-- Every put of a step passes a test. -/
def NodeOp.eachPut (test : MemTableSet → RecordKey → Bool) (w : World) : NodeOp → Bool
  | request (.commitTxn t aged) =>
    match w.store.getTxnState t, w.stagedBodies ∅ (w.store.iterWriteSet t) with
    | some row, .ok bodies => w.mems.eachPut test t (w.nextVersion row) bodies aged (w.store.iterWriteSet t)
    | _, _ => true
  | _ => true

theorem MemTableSet.published_keeps {I : MemTableSet → Prop} {ws : WriteSet} {m : MemTableSet}
    (hput : ∀ (m : MemTableSet) (x : String × WriteSetEntry), x ∈ ws → I m → test m (memKey x.1) = true → I
      ((m.putInvisible (memEntry t v bodies x.1 x.2) (aged x.1)).publish (memKey x.1) v))
    (htest : m.eachPut test t v bodies aged ws = true) (h : I m) : I (m.published t v bodies aged ws) := by
  induction ws generalizing m with
  | nil => exact h
  | cons x rest ih =>
    obtain ⟨hx, hrest⟩ := Bool.and_eq_true_iff.1 htest
    exact ih (fun m y hy => hput m y (List.mem_cons_of_mem _ hy)) hrest (hput m x List.mem_cons_self h hx)

theorem NodeOp.eachPut_commit {row : TxnStateRecord} (h : (NodeOp.request (.commitTxn t aged)).eachPut test w = true)
    (hrow : w.store.getTxnState t = some row) (hbodies : w.stagedBodies ∅ (w.store.iterWriteSet t) = .ok bodies) :
    w.mems.eachPut test t (w.nextVersion row) bodies aged (w.store.iterWriteSet t) = true := by
  simpa only [NodeOp.eachPut, hrow, hbodies] using h

end Puts

theorem NodeStep.mems_keep {I : MemTableSet → Prop} {op : NodeOp} (h : Structured w) (hstep : NodeStep env c w op w')
    (htest : op.eachPut test w = true) (hI : I w.mems)
    (hput : ∀ t row (bodies : Table String Bytes) (aged : String → Bool), w.store.getTxnState t = some row → ∀ (m :
      MemTableSet), ∀ x ∈ w.store.iterWriteSet t, I m → test m (memKey x.1) = true → I ((m.putInvisible (memEntry t
      (w.nextVersion row) bodies x.1 x.2) (aged x.1)).publish (memKey x.1) (w.nextVersion row)))
    (hrotate : I w.mems → I w.mems.rotate)
    (hqueue : ∀ queue, (∀ mt ∈ queue, mt ∈ w.mems.flushing) → I { w.mems with flushing := queue }) : I w'.mems := by
  cases hstep with
  | request hr hstep =>
    obtain ⟨-, heffect, -, -⟩ := h.step hr hstep
    cases ServerStep.of_effect h.inv hr heffect with
    | kept _ hmems | swept _ hmems => exact hmems ▸ hI
    | @published t aged row bodies hreq hpub hbodies hmems =>
      subst hreq
      rw [hmems]
      exact MemTableSet.published_keeps (hput t row bodies aged hpub.found) (NodeOp.eachPut_commit htest hpub.found hbodies) hI
  | rotate => exact hrotate hI
  | flush hflush =>
    cases hflush with
    | @dropped mt rest hq => exact hqueue rest fun mt' hmt => hq ▸ List.mem_cons_of_mem _ hmt
    | @written mt rest _ _ _ _ _ _ hq => exact hqueue rest fun mt' hmt => hq ▸ List.mem_cons_of_mem _ hmt
    | @requeued mt rest hq =>
      refine hqueue (rest ++ [mt]) fun mt' hmt => ?_
      rw [hq]
      rcases List.mem_append.1 hmt with hmt | hmt
      · exact List.mem_cons_of_mem _ hmt
      · exact List.mem_singleton.1 hmt ▸ List.mem_cons_self

end Xtable
