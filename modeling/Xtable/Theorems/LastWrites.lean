import Xtable.Theorems.Bodies
import Xtable.Theorems.ChunkFormat
import Xtable.Theorems.FirstCommitter
import Xtable.Theorems.Memtables
import Xtable.Theorems.NodeRuns

/-! The structured writes of a run, read off its history: the document that stands under a key is the last one
    written there, and a commit brings it into the chain, the memtables and the record rows. -/

namespace Xtable

open Coordinator

variable {env : Env} {c : Codecs} {w w' : World} {t key : String} {row : TxnStateRecord} {op : NodeOp}
  {hist : List (World × NodeOp × World)} {r : Request} {aged : String → Bool}

/-! ## Operations -/

/-- The write that a step has made: the request has answered without an error. -/
def NodeOp.operation (env : Env) (w : World) : NodeOp → Option Operation
  | request r => if ((r.body env).run World.exec w).1.isOk then r.operation w else none
  | _ => none

/-- The last write of a transaction to a key. -/
def lastOperation (env : Env) (hist : List (World × NodeOp × World)) (t key : String) : Option Operation :=
  hist.reverse.findSome? fun x => (x.2.1.operation env x.1).filter fun o => o.txn = t && o.key = key

theorem lastOperation_snoc (hist : List (World × NodeOp × World)) (x : World × NodeOp × World) :
    lastOperation env (hist ++ [x]) t key =
      ((x.2.1.operation env x.1).filter fun o => o.txn = t && o.key = key).or (lastOperation env hist t key) := by
  simp only [lastOperation, List.reverse_append, List.reverse_singleton, List.singleton_append, List.findSome?_cons]
  cases (x.2.1.operation env x.1).filter fun o => o.txn = t && o.key = key <;> rfl

/-- What a request does to the documents of the active transactions: it writes one of them, or none. -/
inductive DraftStep (env : Env) (w : World) (op : NodeOp) (w' : World) : Prop where
  | wrote {t : String} {row : TxnStateRecord} {d : Doc} (hop : op.operation env w = some (d.operation t))
      (hrow : w.store.getTxnState t = some row) (hst : row.status = .active)
      (hrows : ∀ t', t ≠ t' → w'.store.getTxnState t' = w.store.getTxnState t' ∧ w'.pendingOf t' = w.pendingOf t')
      (hactive : (w'.store.getTxnState t).isSome)
      (hdoc : ∀ k, (w'.pendingOf t).docAt k = if d.key = k then some d else (w.pendingOf t).docAt k)
  | quiet (hop : op.operation env w = none)
      (hnew : ∀ t, w'.store.getTxnState t = none → w.store.getTxnState t = none)
      (hactive : ∀ t row', w'.store.getTxnState t = some row' → row'.status = .active →
        (w.store.getTxnState t = none ∧ w'.pendingOf t = {}) ∨
          ∃ row, w.store.getTxnState t = some row ∧ row.status = .active ∧ w'.pendingOf t = w.pendingOf t)

theorem DraftStep.unchanged (hop : op.operation env w = none) : DraftStep env w op w :=
  .quiet hop (fun _ h => h) fun _ row' hrow' hst' => .inr ⟨row', hrow', hst', rfl⟩

theorem DraftStep.noted {d : Doc} {body : Bytes} {contentType : Option String} {userMeta : List (String × String)}
    {p : PendingTxn} (hop : op.operation env w = some (d.operation t)) (hrow : w.store.getTxnState t = some row)
    (hst : row.status = .active) (hdoc : ∀ k, p.docAt k = if d.key = k then some d else (w.pendingOf t).docAt k) :
    DraftStep env w op { w.staged env t d.key body contentType userMeta d.deleted row with pending := w.pending.insert t p } := by
  have hfoot : Footprint t w { w.staged env t d.key body contentType userMeta d.deleted row with
    pending := w.pending.insert t p } := .noted hrow
  refine .wrote hop hrow hst (fun t' ht => ⟨hfoot.rows t' ht, pendingOf_congr (hfoot.pending t' ht)⟩) ?_ fun k => ?_
  · have hstaged : (w.staged env t d.key body contentType userMeta d.deleted row).store.getTxnState t = _ :=
      txnState_staged hrow t
    simp [hstaged]
  · have hpend : World.pendingOf { w.staged env t d.key body contentType userMeta d.deleted row with
        pending := w.pending.insert t p } t = p := by simp [World.pendingOf]
    rw [hpend]
    exact hdoc k

theorem DraftStep.own (hop : op.operation env w = none)
    (hother : ∀ t', t ≠ t' → w'.store.getTxnState t' = w.store.getTxnState t' ∧ w'.pendingOf t' = w.pendingOf t')
    (hnone : w'.store.getTxnState t = none → w.store.getTxnState t = none)
    (hown : ∀ row', w'.store.getTxnState t = some row' → row'.status = .active → (w.store.getTxnState t = none ∧
      w'.pendingOf t = {}) ∨ ∃ row, w.store.getTxnState t = some row ∧ row.status = .active ∧ w'.pendingOf t =
      w.pendingOf t) : DraftStep env w op w' := by
  refine .quiet hop (fun t' hnone' => ?_) fun t' row' hrow' hst' => ?_
  all_goals by_cases ht : t = t'
  · subst ht
    exact hnone hnone'
  · rwa [(hother t' ht).1] at hnone'
  · subst ht
    exact hown row' hrow' hst'
  · rw [(hother t' ht).1] at hrow'
    exact .inr ⟨row', hrow', hst', (hother t' ht).2⟩

theorem DraftStep.touch {row' : TxnStateRecord} (hop : op.operation env w = none) (hrow : w.store.getTxnState t = some row)
    (hst : row.status = .active) (hpending : w'.pending = w.pending)
    (hrows : ∀ t', w'.store.getTxnState t' = if t = t' then some row' else w.store.getTxnState t') : DraftStep env w op w' := by
  have hpend : ∀ t', w'.pendingOf t' = w.pendingOf t' := fun t' => pendingOf_congr (by rw [hpending])
  refine .own (t := t) hop (fun t' ht => ⟨(hrows t').trans (if_neg ht), hpend t'⟩) (fun hnone => ?_)
    fun _ _ _ => .inr ⟨row, hrow, hst, hpend t⟩
  cases ((hrows t).trans (if_pos rfl)).symm.trans hnone

theorem Commits.row_isSome {x : Except XtableError Nat} (h : Commits env aged t w x w')
    (hnone : w'.store.getTxnState t = none) : w.store.getTxnState t = none := by
  rcases h.rows with ⟨rfl, -⟩ | ⟨-, row', -, -, -, hrows⟩
  · exact hnone
  · cases ((hrows t).trans (if_pos rfl)).symm.trans hnone

theorem DraftStep.commits {x : Except XtableError Nat} {u : World} (hop : op.operation env w = none)
    (h : Commits env aged t w x u) (hstore : w'.store = u.store)
    (hpending : ∀ t', t ≠ t' → w'.pendingOf t' = u.pendingOf t') : DraftStep env w op w' := by
  obtain ⟨hfoot, hinactive⟩ := h.footprint
  refine .own (t := t) hop (fun t' ht => ⟨?_, ?_⟩) (fun hnone => ?_) fun row' hrow' hst' => ?_
  · rw [hstore]
    exact hfoot.rows t' ht
  · exact (hpending t' ht).trans (pendingOf_congr (hfoot.pending t' ht))
  · rw [hstore] at hnone
    exact h.row_isSome hnone
  · rw [hstore] at hrow'
    exact absurd hst' (hinactive row' hrow')

theorem pendingOf_unpend {t' : String} (ht : t ≠ t') : (w.unpend t).pendingOf t' = w.pendingOf t' :=
  pendingOf_congr (by simp [World.unpend, ht])

theorem DraftStep.of_call {call : Call} (hop : op.operation env w = none) (hr : (Request.call call).structured = true)
    (hdrafts : Drafts w) (he : CallEffect env w call w') : DraftStep env w op w' := by
  have hswept : ∀ {now timeout : Int} {u : World}, (∀ t, u.store.getTxnState t = (w.sweptStale now timeout).store.getTxnState t) →
      u.pending = (w.sweptStale now timeout).pending → DraftStep env w op u := by
    intro now timeout u hstore hpending
    obtain ⟨hkeep, hrows⟩ := rows_sweptStale w now timeout
    refine .quiet hop (fun t hnone => ?_) fun t row' hrow' hst' => ?_
    · rw [hstore] at hnone
      rcases hrows t with hsame | ⟨-, row', -, -, hrow', -⟩
      · exact hsame.symm.trans hnone
      · rw [hnone] at hrow'
        cases hrow'
    · rw [hstore] at hrow'
      rcases hrows t with hsame | ⟨-, row₁, -, -, hrow₁, hst₁⟩
      · exact .inr ⟨row', hsame.symm.trans hrow', hst', pendingOf_congr (by rw [hpending, hkeep])⟩
      · cases hrow₁.symm.trans hrow'
        rw [hst₁] at hst'
        cases hst'
  cases he with
  | unchanged => exact .unchanged hop
  | stage | commit | abort => cases hr
  | @begin t idem now hrow =>
    have hrows : ∀ t', (w.begun t idem now).store.getTxnState t' = _ := txnState_begun
    refine .own (t := t) hop (fun t' ht => ⟨(hrows t').trans (if_neg ht), rfl⟩) (fun _ => hrow) fun _ _ _ => .inl ⟨hrow, ?_⟩
    simp [World.pendingOf, World.begun, (hdrafts.fresh t hrow).1]
  | read hrow hst =>
    rw [noteRead_eq hrow]
    exact .touch hop hrow hst rfl (txnState_put _ _ _)
  | heartbeat hrow hst => exact .touch hop hrow hst rfl (txnState_put _ _ _)
  | sweepStale => exact hswept (fun _ => rfl) rfl
  | @sweep now timeout => exact @hswept now timeout _ (fun _ => rfl) rfl

theorem NodeOp.operation_error {x : XtableError} (h : ((r.body env).run World.exec w).1 = .error x) :
    (NodeOp.request r).operation env w = none := by
  simp [NodeOp.operation, h, Except.isOk, Except.toBool]

theorem NodeOp.operation_ok (h : ((r.body env).run World.exec w).1 = .ok ()) :
    (NodeOp.request r).operation env w = r.operation w := by
  simp [NodeOp.operation, h, Except.isOk, Except.toBool]

theorem NodeOp.operation_none (h : r.operation w = none) : (NodeOp.request r).operation env w = none := by
  simp [NodeOp.operation, h]

theorem DraftStep.schema {space name : String} {body : Value}
    (hop : r.operation w = (schemaKey space name (w.nextSchemaVersion t space name)).toOption.map fun key => ⟨t,
      (space, "_schema", schemaId name (w.nextSchemaVersion t space name)), key, some body⟩)
    (hrun : (r.body env).run World.exec w = (((Engine.stageSchema env t space name body).run World.exec w).1.map fun
      _ => (), ((Engine.stageSchema env t space name body).run World.exec w).2)) :
    DraftStep env w (.request r) ((r.body env).run World.exec w).2 := by
  rcases stageSchema_run env w t space name body with ⟨x, hx⟩ | ⟨key, row, hkey, hrow, hst, hx⟩ <;> rw [hx] at hrun
  · rw [hrun]
    exact .unchanged (NodeOp.operation_error (x := x) (by rw [hrun]; rfl))
  · let q : PendingSchema := ⟨space, name, w.nextSchemaVersion t space name, body, key⟩
    have hwrote : (NodeOp.request r).operation env w = some (q.doc.operation t) := by
      rw [NodeOp.operation_ok (by rw [hrun]; rfl), hop, hkey]
      rfl
    rw [hrun]
    exact .noted (d := q.doc) hwrote hrow hst (PendingTxn.docAt_addSchema q)

theorem DraftStep.registerSchema (env : Env) (w : World) (t space name : String) (body : Value) :
    DraftStep env w (.request (.registerSchema t space name body))
      (((Request.registerSchema t space name body).body env).run World.exec w).2 := by
  by_cases hobject : body.isObject
  · refine .schema rfl ?_
    simp only [Request.body, Engine.registerSchema, hobject, if_true]
    exact Prog.run_map World.exec _ (fun _ => ()) w
  · have hrun : ((Request.registerSchema t space name body).body env).run World.exec w =
        (.error (.invalidArgument "schema body must be a JSON object"), w) := by
      simp [Request.body, Engine.registerSchema, hobject, Server.discard]
    rw [hrun]
    exact .unchanged (NodeOp.operation_error (by rw [hrun]))

theorem DraftStep.bindTableSchema (env : Env) (w : World) (t space table : String) (body : Value) :
    DraftStep env w (.request (.bindTableSchema t space table body))
      (((Request.bindTableSchema t space table body).body env).run World.exec w).2 := by
  by_cases hobject : body.isObject
  · refine .schema rfl ?_
    simp only [Request.body, Engine.bindTableSchema, hobject, if_true]
    exact Prog.run_map World.exec _ (fun _ => ()) w
  · have hrun : ((Request.bindTableSchema t space table body).body env).run World.exec w =
        (.error (.invalidArgument "table schema body must be a JSON object"), w) := by
      simp [Request.body, Engine.bindTableSchema, hobject]
    rw [hrun]
    exact .unchanged (NodeOp.operation_error (by rw [hrun]))

theorem DraftStep.upsertRecord (env : Env) (hdrafts : Drafts w) (t space table recordId : String)
    (schemaVersion : Option Nat) (body : Value) :
    DraftStep env w (.request (.upsertRecord t space table recordId schemaVersion body))
      (((Request.upsertRecord t space table recordId schemaVersion body).body env).run World.exec w).2 := by
  have hmap : ((Request.upsertRecord t space table recordId schemaVersion body).body env).run World.exec w = _ :=
    Prog.run_map World.exec _ (fun _ => ()) w
  rcases upsertRecord_run env w t space table recordId schemaVersion body with
    ⟨x, hx⟩ | ⟨key, row, hkey, hrow, hst, hx⟩ <;> rw [hx] at hmap
  · rw [hmap]
    exact .unchanged (NodeOp.operation_error (x := x) (by rw [hmap]; rfl))
  · let q : PendingRecord := ⟨space, table, recordId, schemaVersion.getD 0, body, false, key⟩
    have hwrote : (NodeOp.request (.upsertRecord t space table recordId schemaVersion body)).operation env w =
        some (q.doc.operation t) := by
      rw [NodeOp.operation_ok (by rw [hmap]; rfl), Request.operation, hkey]
      rfl
    rw [hmap]
    exact .noted (d := q.doc) hwrote hrow hst
      (PendingTxn.docAt_addRecord (hdrafts.active t row hrow hst).keyed (r := q) hkey)

theorem DraftStep.deleteRecord (env : Env) (hdrafts : Drafts w) (t space table recordId : String) :
    DraftStep env w (.request (.deleteRecord t space table recordId))
      (((Request.deleteRecord t space table recordId).body env).run World.exec w).2 := by
  simp only [Request.body]
  rcases deleteRecord_run env w t space table recordId with ⟨x, hx⟩ | ⟨key, cur, row, -, hkey, hrow, hst, hx⟩
  · rw [hx]
    exact .unchanged (NodeOp.operation_error (r := .deleteRecord t space table recordId) (congrArg Prod.fst hx))
  · let q : PendingRecord := ⟨space, table, recordId, cur.schemaVersion, .null, true, key⟩
    have hwrote : (NodeOp.request (.deleteRecord t space table recordId)).operation env w = some (q.doc.operation t) := by
      rw [NodeOp.operation_ok (r := .deleteRecord t space table recordId) (congrArg Prod.fst hx), Request.operation, hkey]
      rfl
    rw [hx]
    exact .noted (d := q.doc) hwrote hrow hst
      (PendingTxn.docAt_addRecord (hdrafts.active t row hrow hst).keyed (r := q) hkey)

theorem DraftStep.abortTxn (hop : op.operation env w = none) (he : RequestEffect env w (.abortTxn t) w') :
    DraftStep env w op w' := by
  cases he with
  | unchanged => exact .unchanged hop
  | schema hreq => rcases hreq with hreq | ⟨_, -, hreq⟩ <;> cases hreq
  | @abort _ row hrow hst =>
    have hrows : ∀ t', (w.discarded t row "explicit abort").store.getTxnState t' = _ := txnState_discarded w _
    refine .own (t := t) hop (fun t' ht => ⟨(hrows t').trans (if_neg ht), ?_⟩) (fun hnone => ?_) fun row' hrow' hst' => ?_
    · refine (pendingOf_unpend ht).trans (pendingOf_congr ?_)
      exact congrArg (fun p : Table String PendingTxn => p[t']?) (pending_discarded w "explicit abort")
    · exact absurd (((hrows t).trans (if_pos rfl)).symm.trans hnone) (by simp)
    · cases ((hrows t).trans (if_pos rfl)).symm.trans hrow'
      cases hst'
  | abortFails hinactive =>
    exact .own (t := t) hop (fun t' ht => ⟨rfl, pendingOf_unpend ht⟩) id fun row' hrow' hst' =>
      absurd hst' (hinactive row' hrow')

theorem DraftStep.of_request (h : Structured w) (hr : r.structured = true) (hstep : r.step env w = some w') :
    DraftStep env w (.request r) w' := by
  obtain ⟨-, heffect, -, -⟩ := h.step hr hstep
  have hrun : ((r.body env).run World.exec w).2 = w' := by
    unfold Request.step at hstep
    split at hstep
    · exact Option.some.inj hstep
    · cases hstep
  cases r with
  | registerSchema t space name body => exact hrun ▸ .registerSchema env w t space name body
  | bindTableSchema t space table body => exact hrun ▸ .bindTableSchema env w t space table body
  | upsertRecord t space table recordId schemaVersion body => exact hrun ▸ .upsertRecord env h.drafts t space table recordId _ body
  | deleteRecord t space table recordId => exact hrun ▸ .deleteRecord env h.drafts t space table recordId
  | abortTxn t => exact .abortTxn (NodeOp.operation_none rfl) heffect
  | call call =>
    cases heffect with
    | unchanged => exact .unchanged (NodeOp.operation_none rfl)
    | schema hreq => rcases hreq with hreq | ⟨_, -, hreq⟩ <;> cases hreq
    | call hc => exact .of_call (NodeOp.operation_none rfl) hr h.drafts hc
  | commitTxn t aged =>
    cases heffect with
    | unchanged => exact .unchanged (NodeOp.operation_none rfl)
    | schema hreq => rcases hreq with hreq | ⟨_, -, hreq⟩ <;> cases hreq
    | commitFails hc => exact .commits (NodeOp.operation_none rfl) hc rfl fun _ _ => rfl
    | commit hc => exact .commits (NodeOp.operation_none rfl) hc rfl fun _ ht => pendingOf_unpend ht

theorem DraftStep.refiled (hop : op.operation env w = none) (h : Refiled w w') : DraftStep env w op w' := by
  have hrows : ∀ t, w'.store.getTxnState t = w.store.getTxnState t := fun t =>
    h.lookup (fun s => s.getTxnState t) fun _ => rfl
  have hpending : ∀ t, w'.pendingOf t = w.pendingOf t := fun t => pendingOf_congr (by rw [h.pending])
  exact .quiet hop (fun t hnone => (hrows t).symm.trans hnone) fun t row' hrow' hst' =>
    .inr ⟨row', (hrows t).symm.trans hrow', hst', hpending t⟩

theorem DraftStep.of_step (h : Structured w) (hop : op.whole = true) (hstep : op.step env c w = some w') :
    DraftStep env w op w' := by
  cases op with
  | request r => exact .of_request h hop hstep
  | rotate =>
    cases hstep
    exact .refiled rfl (.rotate w)
  | flush => exact .refiled rfl (.flush (.of_flush hstep))
  | failedFlush chunkId nowMs entries n =>
    obtain rfl : n = 0 := by simpa [NodeOp.whole] using hop
    exact .refiled rfl (.flush (.of_failedFlush hstep))

/-! ## What is pending, from the history -/

/-- The document that stands under a key of an active transaction is the last one written there. -/
structure Remembers (env : Env) (hist : List (World × NodeOp × World)) (w : World) : Prop where
  active : ∀ t row, w.store.getTxnState t = some row → row.status = .active → ∀ key,
    lastOperation env hist t key = ((w.pendingOf t).docAt key).map (Doc.operation t)
  fresh : ∀ t, w.store.getTxnState t = none → ∀ key, lastOperation env hist t key = none

theorem Remembers.step (h : Remembers env hist w) (hstep : DraftStep env w op w') :
    Remembers env (hist ++ [(w, op, w')]) w' := by
  cases hstep with
  | quiet hop hnew hactive =>
    have hsame : ∀ t key, lastOperation env (hist ++ [(w, op, w')]) t key = lastOperation env hist t key := by
      intro t key
      simp [lastOperation_snoc, hop]
    refine ⟨fun t row' hrow' hst' key => ?_, fun t hnone key => ?_⟩
    · rw [hsame]
      rcases hactive t row' hrow' hst' with ⟨hnone, hpend⟩ | ⟨row, hrow, hst, hpend⟩
      · rw [h.fresh t hnone key, hpend]
        rfl
      · rw [h.active t row hrow hst key, hpend]
    · rw [hsame]
      exact h.fresh t (hnew t hnone) key
  | @wrote t₀ row₀ d hop hrow hst hother hsome hdoc =>
    have hlast : ∀ t key, lastOperation env (hist ++ [(w, op, w')]) t key =
        if t₀ = t ∧ d.key = key then some (d.operation t₀) else lastOperation env hist t key := by
      intro t key
      by_cases hown : t₀ = t ∧ d.key = key
      · simp [lastOperation_snoc, hop, Option.filter, Doc.operation, hown]
      · have hfalse : (decide (t₀ = t) && decide (d.key = key)) = false := by simpa using hown
        simp [lastOperation_snoc, hop, Option.filter, Doc.operation, hown, hfalse]
    refine ⟨fun t row' hrow' hst' key => ?_, fun t hnone key => ?_⟩
    · rw [hlast]
      by_cases ht : t₀ = t
      · subst ht
        rw [hdoc]
        by_cases hk : d.key = key
        · rw [if_pos ⟨rfl, hk⟩, if_pos hk, Option.map_some]
        · rw [if_neg fun hown => hk hown.2, if_neg hk, h.active t₀ row₀ hrow hst key]
      · rw [if_neg fun hown => ht hown.1]
        obtain ⟨hrows, hpend⟩ := hother t ht
        rw [h.active t row' (hrows ▸ hrow') hst' key, hpend]
    · have ht : t₀ ≠ t := by
        rintro rfl
        simp [hnone] at hsome
      rw [hlast, if_neg fun hown => ht hown.1]
      exact h.fresh t ((hother t ht).1.symm.trans hnone) key

theorem Remembers.of_run (hrun : Run (NodeOp.step env c) {} hist w) (hcond : ∀ x ∈ hist, x.2.1.whole = true) :
    Remembers env hist w := by
  induction hrun with
  | nil => exact ⟨fun t row hrow => by simp [Store.getTxnState] at hrow, fun _ _ _ => rfl⟩
  | @snoc hist u v op hrun hstep ih =>
    have hfirst : ∀ x ∈ hist, x.2.1.whole = true := fun x hx => hcond x (List.mem_append_left _ hx)
    have hop : op.whole = true := hcond (u, op, v) (List.mem_append_right _ (List.mem_singleton_self _))
    exact (ih hfirst).step (.of_step (Orderly.of_run hrun hfirst).structured hop hstep)

/-! ## Bodies -/

/-- A step spills no body under the handle of another staged write of its transaction. -/
def NodeOp.apart (env : Env) (w : World) : NodeOp → Bool
  | request r => r.apart env w
  | _ => true

theorem Bodies.refiled (h : Bodies env w) (hfiled : Refiled w w') : Bodies env w' := by
  have hblobs := hfiled.lookup Store.stagedBlobs fun _ => rfl
  have hwrites := hfiled.lookup Store.writeSet fun _ => rfl
  exact h.shed (.of_eq hfiled.files hblobs hwrites hfiled.pending)

theorem Bodies.node_step (h : Bodies env w) (hs : Structured w) (hop : op.apart env w = true)
    (hstep : NodeStep env c w op w') : Bodies env w' := by
  cases hstep with
  | request hr hstep =>
    obtain ⟨-, heffect, -, -⟩ := hs.step hr hstep
    exact h.step hop (.of_effect hs.drafts hr heffect)
  | rotate => exact h.refiled (.rotate w)
  | flush hflush => exact h.refiled (.flush hflush)

theorem Bodies.of_run (hrun : Run (NodeOp.step env c) {} hist w)
    (hcond : ∀ x ∈ hist, x.2.1.whole = true ∧ x.2.1.apart env x.1 = true) : Orderly w ∧ Bodies env w :=
  (hrun.invariant (I := fun w => Orderly w ∧ Bodies env w)
    (C := fun w (op : NodeOp) => op.whole = true ∧ op.apart env w = true) ⟨.empty, .empty⟩
    (fun _ _ _ hu hop hstep => ⟨hu.1.step (.of_step hop.1 hstep),
      hu.2.node_step hu.1.structured hop.2 (.of_step hop.1 hstep)⟩) hcond).1

/-! ## Commits -/

/-- The chain, the memtables and the record rows end with an operation, at a version. -/
structure World.Carries (env : Env) (w : World) (v : Nat) (o : Operation) : Prop where
  chain : ∃ e, (w.store.readChain o.key).entries.getLast? = some e ∧ e.txnId = o.txn ∧ e.commitVersion = v ∧
    e.deleted = o.body.isNone
  memtable : ∃ e, w.mems.newest o.rk = some e ∧ e.commitVersion = (v : WithTop Nat) ∧ e.deleted = o.body.isNone ∧
    ∀ body, o.body = some body → e.value = utf8 (env.jsonText body)
  version : ∃ r, w.store.recordVersions[(o.rk, v)]? = some r ∧ r.entry.commitVersion = v ∧
    r.entry.deleted = o.body.isNone ∧ ∀ body, o.body = some body → r.body = utf8 (env.jsonText body)
  latest : ∃ r, w.store.recordIndex[o.rk]? = some r ∧ r.entry.commitVersion = v ∧
    r.entry.deleted = o.body.isNone ∧ ∀ body, o.body = some body → r.bodyJson = env.jsonText body

theorem Doc.operation_isNone (t : String) (d : Doc) : (d.operation t).body.isNone = d.deleted := by
  unfold Doc.operation
  cases d.deleted <;> rfl

theorem Doc.operation_body {d : Doc} {body : Value} (h : (d.operation t).body = some body) :
    d.deleted = false ∧ d.body = body := by
  simp only [Doc.operation] at h
  split at h
  case isTrue => cases h
  case isFalse hlive => exact ⟨by simpa using hlive, Option.some.inj h⟩

@[simp] theorem chainEntry_deleted (t : String) (ws : WriteSet) (key : String) (v : Nat) :
    (chainEntry t ws key v).deleted = isDeleted ws key := by
  unfold chainEntry
  cases h : isDeleted ws key <;> simp [VersionEntry.tombstone, VersionEntry.new]

theorem Draft.doc_of_write {x : String × WriteSetEntry} (hdraft : Draft w t row) (hx : x ∈ w.store.iterWriteSet t) :
    ∃ d, (w.pendingOf t).docAt x.1 = some d ∧ memKey x.1 = d.rk ∧ x.2.deleted = d.deleted := by
  have hwrites := hdraft.writes x.1
  rw [mem_iterWriteSet.1 hx, Option.map_some] at hwrites
  obtain ⟨d, hd, hdeleted⟩ := Option.map_eq_some_iff.1 hwrites.symm
  obtain ⟨hmem, hkey⟩ := PendingTxn.docAt_mem hd
  exact ⟨d, hd, hkey ▸ (hdraft.keyed.docKey hmem).memKey_eq, hdeleted.symm⟩

theorem Draft.memEntry {bodies : Table String Bytes} {x : String × WriteSetEntry} (hdraft : Draft w t row)
    (hbodies : Bodies env w) (hstaged : w.stagedBodies ∅ (w.store.iterWriteSet t) = .ok bodies)
    (hx : x ∈ w.store.iterWriteSet t) (v : Nat) : ∃ d, (w.pendingOf t).docAt x.1 = some d ∧ memKey x.1 = d.rk ∧
      (memEntry t v bodies x.1 x.2).deleted = d.deleted ∧
      (d.deleted = false → (memEntry t v bodies x.1 x.2).value = utf8 (env.jsonText d.body)) := by
  obtain ⟨d, hd, hrk, hdeleted⟩ := hdraft.doc_of_write hx
  refine ⟨d, hd, hrk, hdeleted, fun hlive => ?_⟩
  obtain ⟨b, hb, hget⟩ := (stagedBodies_get (nodup_iterWriteSet ..) hstaged).1 _ hx
  simp only [Coordinator.memEntry, hget, Option.getD_some]
  exact hbodies.stagedBody (mem_iterWriteSet.1 hx) hd hlive hb

theorem Publication.memtable {d : Doc} (h : Publication env w t row w') (hdraft : Draft w t row) (hbodies : Bodies env w)
    (hd : (w.pendingOf t).docAt key = some d) : ∃ e, w'.mems.newest d.rk = some e ∧
      e.commitVersion = (w.nextVersion row : WithTop Nat) ∧ e.deleted = d.deleted ∧
      (d.deleted = false → e.value = utf8 (env.jsonText d.body)) := by
  obtain ⟨hmem, rfl⟩ := PendingTxn.docAt_mem hd
  obtain ⟨aged, bodies, hstaged, hmems⟩ := h.mems
  have hwrites := hdraft.writes d.key
  rw [hd, Option.map_some] at hwrites
  obtain ⟨we, hwe, -⟩ := Option.map_eq_some_iff.1 hwrites
  have hx : (d.key, we) ∈ w.store.iterWriteSet t := mem_iterWriteSet.2 hwe
  obtain ⟨d', hd', hrk, hdeleted, hvalue⟩ := hdraft.memEntry hbodies hstaged hx (w.nextVersion row)
  cases hd.symm.trans hd'
  have honly : ∀ y ∈ w.store.iterWriteSet t, memKey y.1 = memKey d.key → y = (d.key, we) := by
    rintro ⟨k, we'⟩ hy heq
    obtain ⟨d', hd', hrk', -, -⟩ := hdraft.memEntry hbodies hstaged hy (w.nextVersion row)
    obtain ⟨hmem', rfl⟩ := PendingTxn.docAt_mem hd'
    have hkey' := hdraft.keyed.docKey hmem'
    rw [← hrk', heq, hrk] at hkey'
    have hsame : d'.key = d.key := hkey'.key_unique (hdraft.keyed.docKey hmem)
    have hget := mem_iterWriteSet.1 hy
    rw [hsame, hwe] at hget
    rw [hsame, Option.some.inj hget]
  refine ⟨_, ?_, rfl, hdeleted, hvalue⟩
  rw [hmems, ← hrk]
  exact w.mems.newest_published hx honly

theorem Publication.carries {d : Doc} (h : Publication env w t row w') (hdraft : Draft w t row) (hagree : w.store.Agrees)
    (hbodies : Bodies env w) (hd : (w.pendingOf t).docAt key = some d) :
    w'.Carries env (w.nextVersion row) (d.operation t) := by
  obtain ⟨hmem, rfl⟩ := PendingTxn.docAt_mem hd
  have hversion : ∀ d' ∈ (w.pendingOf t).docs, (d'.entry (commitEvent t row (w.store.iterWriteSet t)
      (w.nextVersion row))).commitVersion = w.nextVersion row := fun d' hd' => hdraft.docVersion _ hd'
  have hkey := hdraft.keyed.docKey hmem
  have hwritten : d.key ∈ row.writeKeys := (hdraft.keys d.key).2 (by simp [hd])
  refine ⟨⟨chainEntry t (w.store.iterWriteSet t) d.key (w.nextVersion row), ?_, by simp [Doc.operation], by simp, ?_⟩,
    ?_, ⟨d.row env _, ?_, hversion d hmem, ?_, ?_⟩, ⟨d.latest env _, ?_, hversion d hmem, ?_, ?_⟩⟩
  · rw [Doc.operation, h.chains, if_pos hwritten, List.getLast?_concat]
  · rw [chainEntry_deleted, hdraft.isDeleted hd, Doc.operation_isNone]
  · obtain ⟨e, he, hev, hdeleted, hvalue⟩ := h.memtable hdraft hbodies hd
    refine ⟨e, he, hev, hdeleted.trans (Doc.operation_isNone t d).symm, fun body hbody => ?_⟩
    obtain ⟨hlive, rfl⟩ := Doc.operation_body hbody
    exact hvalue hlive
  · exact h.version_row hdraft hd
  · exact (Doc.operation_isNone t d).symm
  · intro body hbody
    obtain ⟨-, rfl⟩ := Doc.operation_body hbody
    rfl
  · rw [h.recordIndex_eq, Doc.operation, hdraft.keyed.recordIndex_indexed hversion
      (fun d' hd' cur hcur => h.latest_le hdraft hagree hd' hcur) hkey, hd]
    rfl
  · exact (Doc.operation_isNone t d).symm
  · intro body hbody
    obtain ⟨-, rfl⟩ := Doc.operation_body hbody
    rfl

theorem commitTxn_cases (env : Env) (aged : String → Bool) (hinv : Inv True w fun _ => none) (t : String) :
    let out := (Engine.commitTxn env aged t).run World.exec w
    (out.2.store.catalog = w.store.catalog ∧
      ∀ row v, w.store.getTxnState t = some row → row.status = .active → out.1 ≠ .ok v) ∨
    ∃ row, Publication env w t row out.2 ∧ out.1 = .ok (w.nextVersion row) := by
  have hends := Commits.of_inv env aged hinv t
  have hreply : ((Engine.commitTxn env aged t).run World.exec w).1 =
      ((Coordinator.commit (Engine.postCommitHook env) aged t).run World.exec w).1 := by
    unfold Engine.commitTxn
    rw [Prog.bind_eq, Prog.run_bind]
    generalize (Coordinator.commit (Engine.postCommitHook env) aged t).run World.exec w = r
    obtain ⟨_ | v, u⟩ := r <;> rfl
  simp only [hreply, commitTxn_run]
  revert hends
  generalize (Coordinator.commit (Engine.postCommitHook env) aged t).run World.exec w = r
  obtain ⟨x | v, u⟩ := r <;> intro hends <;> simp only at hends ⊢
  · refine .inl ⟨?_, fun _ _ _ _ h => by cases h⟩
    cases hends with
    | unknown | settled => rfl
    | unstaged | dangerous => exact catalog_refused _ _
    | conflict => exact (catalog_refused _ _).trans (catalog_bumped _)
  · cases hends with
    | settled hrow hst =>
      refine .inl ⟨rfl, fun row v' hrow' hst' => ?_⟩
      cases hrow.symm.trans hrow'
      exact absurd hst' hst
    | @published row bodies hrow hst hbodies _ hkey =>
      have hpub : Publication env w t row (((w.claimed t row).bumped row).published env aged t row _ _ _) :=
        World.Ready.publication ⟨hrow, hst, hinv.committable hrow hst, Store.newerKey_insertionSort hkey⟩ hbodies
      exact .inr ⟨row, ⟨hpub.toReady, hpub.chains, hpub.versions, hpub.indexes, hpub.chunks, hpub.mems⟩, rfl⟩

theorem commitTxn_published {v : Nat} (hinv : Inv True w fun _ => none) (hrow : w.store.getTxnState t = some row)
    (hst : row.status = .active) (hcommit : ((Engine.commitTxn env aged t).run World.exec w).1 = .ok v) :
    v = w.nextVersion row ∧ Publication env w t row ((Engine.commitTxn env aged t).run World.exec w).2 := by
  rcases commitTxn_cases env aged hinv t with ⟨-, hno⟩ | ⟨row', hpub, hreply⟩
  · exact absurd hcommit (hno row v hrow hst)
  · cases hrow.symm.trans hpub.found
    exact ⟨Except.ok.inj (hcommit.symm.trans hreply), hpub⟩

/-- After a commit that answers `v`, every key the transaction has staged ends with its last operation there, at
version `v`: in the chain, in the memtables and in both tables of record rows. -/
theorem last_operation_wins (env : Env) (c : Codecs) {hist : List (World × NodeOp × World)} {w : World}
    (hrun : Run (NodeOp.step env c) {} hist w) (hcond : ∀ x ∈ hist, x.2.1.whole = true ∧ x.2.1.apart env x.1 = true) (t : String) (row : TxnStateRecord)
    (aged : String → Bool) (v : Nat) (hrow : w.store.getTxnState t = some row) (hst : row.status = .active)
    (hcommit : ((Engine.commitTxn env aged t).run World.exec w).1 = .ok v) (key : String) (o : Operation)
    (hlast : lastOperation env hist t key = some o) :
    ((Engine.commitTxn env aged t).run World.exec w).2.Carries env v o := by
  obtain ⟨horderly, hbodies⟩ := Bodies.of_run hrun hcond
  have hs := horderly.structured
  rw [(Remembers.of_run hrun fun x hx => (hcond x hx).1).active t row hrow hst key] at hlast
  obtain ⟨d, hd, rfl⟩ := Option.map_eq_some_iff.1 hlast
  obtain ⟨rfl, hpub⟩ := commitTxn_published hs.inv hrow hst hcommit
  exact hpub.carries (hs.drafts.active t row hrow hst) hs.agrees hbodies hd

def rewriteOps : List NodeOp :=
  [.request (.call (.begin "T" none 0)), .request (.upsertRecord "T" "s" "t" "r" none .null),
    .request (.commitTxn "T" fun _ => false), .request (.call (.begin "U" none 0)),
    .request (.deleteRecord "U" "s" "t" "r"), .request (.upsertRecord "U" "s" "t" "r" none .null),
    .request (.deleteRecord "U" "s" "t" "r")]

theorem last_operation_wins_deleted : ∃ hist w o, Run (NodeOp.step .sample .stored) {} hist w ∧
    o.rk = ("s", "t", "r") ∧ o.body = none ∧
    ((Engine.commitTxn .sample (fun _ => false) "U").run World.exec w).2.Carries .sample 2 o := by
  obtain ⟨w, hguarded, htest⟩ := Run.exists_of_exec (guarded (fun w (op : NodeOp) => op.whole && op.apart .sample w)
    (NodeOp.step .sample .stored)) {} rewriteOps
    (fun w => (w.store.getTxnState "U").any (fun row => row.status = .active) &&
      ((Engine.commitTxn .sample (fun _ => false) "U").run World.exec w).1.toOption = some 2) (by decide +kernel)
  obtain ⟨hrun, hcond⟩ := hguarded.of_guarded
  simp only [Bool.and_eq_true, Option.any_eq_true, decide_eq_true_eq] at htest hcond
  obtain ⟨⟨row, hrow, hst⟩, hreply⟩ := htest
  have hlast : (lastOperation .sample (history (guarded (fun w (op : NodeOp) => op.whole && op.apart .sample w)
      (NodeOp.step .sample .stored)) rewriteOps {}) "U" "_xtable/s/t/r.json").any
      (fun o => o.rk = ("s", "t", "r") && o.body.isNone) = true := by decide +kernel
  obtain ⟨o, ho, hkind⟩ := (Option.any_eq_true ..).1 hlast
  simp only [Bool.and_eq_true, decide_eq_true_eq, Option.isNone_iff_eq_none] at hkind
  have hok : ((Engine.commitTxn .sample (fun _ => false) "U").run World.exec w).1 = .ok 2 := by
    cases h : ((Engine.commitTxn .sample (fun _ => false) "U").run World.exec w).1 <;> rw [h] at hreply <;> cases hreply
    rfl
  exact ⟨_, w, o, hrun, hkind.1, hkind.2, last_operation_wins .sample .stored hrun hcond "U" row _ 2
    hrow hst hok _ o ho⟩

end Xtable
