import Xtable.Theorems.Sequential

/-! Calls that run alone: the effect of each operation as a function of the state it starts in, and the ways it can
    end. -/

namespace Xtable

open Prog Coordinator

variable {env : Env} {w : World} {t key : String} {row : TxnStateRecord} {ws : List (String × WriteSetEntry)}
  {userMeta : List (String × String)} {contentType : Option String} {v : Nat}

/-! ## Stage, read, heartbeat -/

theorem requireActive_run (hrow : w.store.getTxnState t = some row) (hst : row.status = .active) :
    (requireActive t).run World.exec w = (.ok row, w) := by
  have hexec : w.exec (.getTxnState t) = (some row, w) := by rw [← hrow]; rfl
  simp [requireActive, Prog.perform, hexec, hst]

theorem requireActive_fails (h : ∀ row, w.store.getTxnState t = some row → row.status ≠ .active) :
    ∃ x, (requireActive t).run World.exec w = (.error x, w) := by
  have hexec : w.exec (.getTxnState t) = (w.store.getTxnState t, w) := rfl
  cases hrow : w.store.getTxnState t with
  | none => exact ⟨(TxnError.unknownTxn t).into, by simp [requireActive, Prog.perform, hexec, hrow]⟩
  | some row =>
    have hst := h row hrow
    exact ⟨(TxnError.invalidState ("txn not active: " ++ row.status.debug)).into,
      by simp [requireActive, Prog.perform, hexec, hrow, hst]⟩

theorem World.active_or (w : World) (t : String) :
    (∃ row, w.store.getTxnState t = some row ∧ row.status = .active) ∨
      ∀ row, w.store.getTxnState t = some row → row.status ≠ .active := by
  by_cases h : ∃ row, w.store.getTxnState t = some row ∧ row.status = .active
  · exact .inl h
  · exact .inr fun row hrow hst => h ⟨row, hrow, hst⟩

/-- The handle under which `stage` spills a body, if it does. -/
def stagedHandle (env : Env) (t key : String) (body : Bytes) : Option String :=
  if spillThreshold < body.length then some (spillHandle env t key) else none

/-- The store that a staged write finds its body spilled in. -/
def Store.spilled (env : Env) (t key : String) (body : Bytes) (s : Store) : Store :=
  if spillThreshold < body.length then
    s.putBlob (spillHandle env t key) ⟨spillPath env (spillHandle env t key), body.length⟩
  else s

/-- `stage` on the store, on a row that is `Active`. -/
def Store.staged (env : Env) (t key : String) (body : Bytes) (contentType : Option String)
    (userMeta : List (String × String)) (deleted : Bool) (row : TxnStateRecord) (s : Store) : Store :=
  let handle := stagedHandle env t key body
  let s := ((s.spilled env t key body).appendWal (.stage t key handle)).2
  let s := s.putWriteEntry t key (writeEntry key body handle contentType userMeta deleted)
  if key ∈ row.writeKeys then s else s.putTxnState t (row.addWriteKey key)

def World.staged (env : Env) (t key : String) (body : Bytes) (contentType : Option String)
    (userMeta : List (String × String)) (deleted : Bool) (row : TxnStateRecord) (w : World) : World :=
  { w with
    store := w.store.staged env t key body contentType userMeta deleted row
    files := if spillThreshold < body.length then w.files.insert (spillPath env (spillHandle env t key)) body
      else w.files
    locks := w.locks.registerWrite t key (row.snapshotVersion + 1) }

theorem stage_run (env : Env) (key : String) (body : Bytes) (contentType : Option String)
    (userMeta : List (String × String)) (deleted : Bool) (hrow : w.store.getTxnState t = some row)
    (hst : row.status = .active) : (stage env t key body contentType userMeta deleted).run World.exec w =
      (.ok (), w.staged env t key body contentType userMeta deleted row) := by
  unfold stage
  rw [bind_eq, run_bind_ok World.exec (requireActive_run hrow hst)]
  by_cases hspill : spillThreshold < body.length <;> by_cases hkey : key ∈ row.writeKeys <;>
    simp [spill, hspill, hkey, World.staged, Store.staged, Store.spilled, stagedHandle, Prog.perform, World.exec,
      World.setStore, World.setLocks, World.onStore]

theorem stage_alone (env : Env) (w : World) (t key : String) (body : Bytes) (contentType : Option String)
    (userMeta : List (String × String)) (deleted : Bool) :
    (∃ x, (stage env t key body contentType userMeta deleted).run World.exec w = (.error x, w)) ∨
    ∃ row, w.store.getTxnState t = some row ∧ row.status = .active ∧
      (stage env t key body contentType userMeta deleted).run World.exec w =
        (.ok (), w.staged env t key body contentType userMeta deleted row) := by
  rcases w.active_or t with ⟨row, hrow, hst⟩ | hinactive
  · exact .inr ⟨row, hrow, hst, stage_run env key body contentType userMeta deleted hrow hst⟩
  · obtain ⟨x, hx⟩ := requireActive_fails hinactive
    refine .inl ⟨x, ?_⟩
    unfold stage
    rw [bind_eq, run_bind_error World.exec hx]

def World.noteRead (t key : String) (version : Nat) (etag : String) (row : TxnStateRecord) (w : World) : World :=
  { w with
    store := if key ∈ row.readKeys then w.store else w.store.putTxnState t (row.addReadKey key)
    locks := w.locks.registerRead t key version etag }

theorem read_run (key : String) (version : Nat) (etag : String) (hrow : w.store.getTxnState t = some row)
    (hst : row.status = .active) : (Coordinator.read t key version etag).run World.exec w =
      (.ok (), w.noteRead t key version etag row) := by
  unfold Coordinator.read
  rw [bind_eq, run_bind_ok World.exec (requireActive_run hrow hst)]
  by_cases hkey : key ∈ row.readKeys <;>
    simp [hkey, World.noteRead, Prog.perform, World.exec, World.setStore, World.setLocks]

theorem read_alone (w : World) (t key : String) (version : Nat) (etag : String) :
    (∃ x, (Coordinator.read t key version etag).run World.exec w = (.error x, w)) ∨
    ∃ row, w.store.getTxnState t = some row ∧ row.status = .active ∧
      (Coordinator.read t key version etag).run World.exec w = (.ok (), w.noteRead t key version etag row) := by
  rcases w.active_or t with ⟨row, hrow, hst⟩ | hinactive
  · exact .inr ⟨row, hrow, hst, read_run key version etag hrow hst⟩
  · obtain ⟨x, hx⟩ := requireActive_fails hinactive
    refine .inl ⟨x, ?_⟩
    unfold Coordinator.read
    rw [bind_eq, run_bind_error World.exec hx]

theorem heartbeat_alone (w : World) (t : String) (now : Int) :
    (∃ x, (heartbeat t now).run World.exec w = (.error x, w)) ∨
    ∃ row, w.store.getTxnState t = some row ∧ row.status = .active ∧
      (heartbeat t now).run World.exec w =
        (.ok (), { w with store := w.store.putTxnState t { row with lastHeartbeatMs := now } }) := by
  rcases w.active_or t with ⟨row, hrow, hst⟩ | hinactive
  · refine .inr ⟨row, hrow, hst, ?_⟩
    unfold heartbeat
    rw [bind_eq, run_bind_ok World.exec (requireActive_run hrow hst)]
    rfl
  · obtain ⟨x, hx⟩ := requireActive_fails hinactive
    refine .inl ⟨x, ?_⟩
    unfold heartbeat
    rw [bind_eq, run_bind_error World.exec hx]

/-! ## Begin -/

def World.begun (t : String) (idem : Option String) (now : Int) (w : World) : World :=
  { w with
    store := ((w.store.captureAndRegisterSnapshot.2.putTxnState t
      (.newActive w.store.globalVersion idem now)).appendWal (.begin t w.store.globalVersion idem)).2
    locks := { w.locks with byTxn := w.locks.byTxn.insert t { snapshotVersion := w.store.globalVersion } } }

theorem begin_alone (idem : Option String) (now : Int) (h : w.locks.byTxn[t]? = none) :
    (Coordinator.begin t idem now).run World.exec w = (.ok t, w.begun t idem now) := by
  simp [Coordinator.begin, Prog.perform, World.exec, World.onStore, World.setStore, SiLockManager.beginTxn, h,
    World.begun, Store.captureAndRegisterSnapshot]

/-! ## Abort and sweep -/

def World.dropBlob (w : World) (handle : String) : World :=
  { w with
    store := w.store.deleteBlob handle
    files := match w.store.getBlob handle with
      | some blob => w.files.erase blob.path
      | none => w.files }

def World.dropStaged (t : String) (w : World) (x : String × WriteSetEntry) : World :=
  let w := match x.2.bodyHandle with
    | some handle => w.dropBlob handle
    | none => w
  { w with store := w.store.deleteWriteEntry t x.2.backendKey }

theorem dropStaged_run (t : String) (x : String × WriteSetEntry) (w : World) :
    (Coordinator.dropStaged t x.2).run World.exec w = (.ok (), w.dropStaged t x) := by
  cases hh : x.2.bodyHandle with
  | none => simp [Coordinator.dropStaged, World.dropStaged, hh, Prog.perform, World.exec, World.setStore]
  | some handle =>
    cases hb : w.store.getBlob handle <;>
      simp [Coordinator.dropStaged, World.dropStaged, World.dropBlob, hh, hb, Prog.perform, World.exec, World.setStore]

theorem exec_getTxnState (w : World) (t : String) : w.exec (.getTxnState t) = (w.store.getTxnState t, w) := rfl

theorem exec_iterWriteSet (w : World) (t : String) : w.exec (.iterWriteSet t) = (w.store.iterWriteSet t, w) := rfl

theorem dropAll_run (t : String) (w : World) (ws : WriteSet) :
    (forEach ws fun x => Coordinator.dropStaged t x.2).run World.exec w = (.ok (), ws.foldl (World.dropStaged t) w) :=
  run_forEach World.exec fun x _ w => dropStaged_run t x w

/-- Move a row to `Aborted` and drop what it has staged. -/
def World.discarded (t : String) (row : TxnStateRecord) (reason : String) (w : World) : World :=
  let w := { w with store := w.store.putTxnState t { row with status := .aborted } }
  let w := (w.store.iterWriteSet t).foldl (World.dropStaged t) w
  { w with store := (w.store.appendWal (.aborted t reason)).2.unregisterSnapshot row.snapshotVersion }

def World.forget (t : String) (w : World) : World := { w with locks := w.locks.markAborted t }

theorem exec_claim (hrow : w.store.getTxnState t = some row) (hst : row.status = .active) (next : TxnStatus) :
    w.exec (.compareAndSetTxnStatus t .active next) =
      (true, { w with store := w.store.putTxnState t { row with status := next } }) := by
  rcases World.exec_compareAndSet w t .active next with ⟨r, hr, -, heq⟩ | ⟨hne, -⟩
  · cases hrow.symm.trans hr
    rw [heq]
  · exact absurd hst (hne row hrow)

theorem abort_alone (w : World) (t : String) :
    ((∀ row, w.store.getTxnState t = some row → row.status ≠ .active) ∧ ∃ r, (abort t).run World.exec w = (r, w)) ∨
    ∃ row, w.store.getTxnState t = some row ∧ row.status = .active ∧
      (abort t).run World.exec w = (.ok (), (w.discarded t row "explicit abort").forget t) := by
  rcases w.active_or t with ⟨row, hrow, hst⟩ | hinactive
  · refine .inr ⟨row, hrow, hst, ?_⟩
    simp only [abort, Prog.perform, bind_eq, act_bind, ret_bind, run_act, exec_getTxnState, hrow, hst,
      exec_claim hrow hst, exec_iterWriteSet, if_true]
    rw [run_bind_ok World.exec (dropAll_run t _ _)]
    rfl
  · refine .inl ⟨hinactive, ?_⟩
    cases hrow : w.store.getTxnState t with
    | none => exact ⟨_, by simp only [abort, Prog.perform, bind_eq, act_bind, ret_bind, run_act, exec_getTxnState, hrow]; rfl⟩
    | some row =>
      cases hst : row.status with
      | active => exact absurd hst (hinactive row hrow)
      | committing | committed | aborted =>
        exact ⟨_, by simp only [abort, Prog.perform, bind_eq, act_bind, ret_bind, run_act, exec_getTxnState, hrow, hst]; rfl⟩

def World.expire (w : World) (t : String) : World :=
  match w.store.getTxnState t with
  | some row => if row.status = .active then w.discarded t row "GC: stale txn timeout" else w
  | none => w

theorem abortTxnLocal_run (w : World) (t : String) :
    ∃ b, (Gc.abortTxnLocal t).run World.exec w = (.ok b, w.expire t) := by
  cases hrow : w.store.getTxnState t with
  | none => exact ⟨false, by simp [Gc.abortTxnLocal, World.expire, Prog.perform, exec_getTxnState, hrow]⟩
  | some row =>
    by_cases hst : row.status = .active
    · refine ⟨true, ?_⟩
      simp only [Gc.abortTxnLocal, World.expire, Prog.perform, bind_eq, act_bind, ret_bind, run_act, exec_getTxnState,
        hrow, hst, exec_claim hrow hst, exec_iterWriteSet, if_true]
      rw [run_bind_ok World.exec (dropAll_run t _ _)]
      rfl
    · exact ⟨false, by simp [Gc.abortTxnLocal, World.expire, Prog.perform, exec_getTxnState, hrow, hst]⟩

theorem abortEach_run (n : Nat) (ts : List String) (w : World) :
    ∃ m, (Gc.abortEach n ts).run World.exec w = (.ok m, ts.foldl World.expire w) := by
  induction ts generalizing n w with
  | nil => exact ⟨n, rfl⟩
  | cons t rest ih =>
    obtain ⟨b, hb⟩ := abortTxnLocal_run w t
    obtain ⟨m, hm⟩ := ih (if b then n + 1 else n) (w.expire t)
    refine ⟨m, ?_⟩
    rw [Gc.abortEach, bind_eq, run_bind_ok World.exec hb]
    exact hm

/-- The stale transactions of a sweep, and then all of them gone. -/
def World.sweptStale (now timeout : Int) (w : World) : World :=
  (w.store.scanStale (Gc.cutoff now timeout)).foldl World.expire w

theorem sweepStale_alone (w : World) (now timeout : Int) :
    ∃ n, (Gc.sweepStaleTxns now timeout).run World.exec w = (.ok n, w.sweptStale now timeout) :=
  abortEach_run 0 (w.store.scanStale (Gc.cutoff now timeout)) w

def World.collected (w : World) : World := { w with store := w.store.gcChainsAtActiveSnapshot.2 }

theorem sweep_alone (w : World) (now timeout : Int) :
    ∃ r, (Gc.sweepAll now timeout).run World.exec w = (.ok r, (w.sweptStale now timeout).collected) := by
  obtain ⟨n, hn⟩ := sweepStale_alone w now timeout
  refine ⟨(n, (w.sweptStale now timeout).store.gcChainsAtActiveSnapshot.1), ?_⟩
  rw [Gc.sweepAll, bind_eq, run_bind_ok World.exec hn]
  rfl

/-! ## Commit -/

/-- The body of a staged write, as `commit` reads it. -/
def World.stagedBody (w : World) (we : WriteSetEntry) : Except XtableError Bytes :=
  match we.inlineBody, we.bodyHandle with
  | some body, _ => .ok body
  | none, none => .ok []
  | none, some handle =>
    match w.store.getBlob handle with
    | none => .error (.storage ("staged blob missing: " ++ handle))
    | some blob =>
      match w.files[blob.path]? with
      | none => .error (.io "No such file or directory (os error 2)")
      | some body => .ok body

def World.stagedBodies (w : World) (bodies : Table String Bytes) :
    WriteSet → Except XtableError (Table String Bytes)
  | [] => .ok bodies
  | (key, we) :: rest =>
    match w.stagedBody we with
    | .error x => .error x
    | .ok body => w.stagedBodies (bodies.insert key body) rest

theorem stagedBody_run (w : World) (we : WriteSetEntry) :
    (Coordinator.stagedBody we).run World.exec w = (w.stagedBody we, w) := by
  cases hinline : we.inlineBody with
  | some body => simp [Coordinator.stagedBody, World.stagedBody, hinline]
  | none =>
    cases hhandle : we.bodyHandle with
    | none => simp [Coordinator.stagedBody, World.stagedBody, hinline, hhandle]
    | some handle =>
      cases hb : w.store.getBlob handle with
      | none => simp [Coordinator.stagedBody, World.stagedBody, hinline, hhandle, Prog.perform, World.exec, hb]
      | some blob =>
        cases hf : w.files[blob.path]? <;>
          simp [Coordinator.stagedBody, World.stagedBody, hinline, hhandle, Prog.perform, World.exec, hb, hf]

theorem materialize_run (w : World) (bodies : Table String Bytes) (ws : WriteSet) :
    (materialize bodies ws).run World.exec w = (w.stagedBodies bodies ws, w) := by
  induction ws generalizing bodies with
  | nil => rfl
  | cons x rest ih =>
    have hbody := stagedBody_run w x.2
    unfold World.stagedBodies
    cases hb : w.stagedBody x.2 with
    | error e =>
      rw [hb] at hbody
      exact run_bind_error World.exec hbody
    | ok body =>
      rw [hb] at hbody
      exact (run_bind_ok World.exec hbody).trans (ih _)

/-- The first of the keys that has a version newer than the snapshot. -/
def Store.newerKey (s : Store) (snapshot : Nat) (keys : List String) : Option String :=
  keys.find? fun key => decide ((s.readChain key).entries ≠ [] ∧ snapshot < (s.readChain key).latestCommitVersion)

/-- Store that a commit gives up, and release its pin. -/
def World.refused (t : String) (row : TxnStateRecord) (reason : String) (w : World) : World :=
  { w with
    store := ((w.store.appendWal (.aborted t reason)).2.putTxnState t
      { row with status := .aborted }).unregisterSnapshot row.snapshotVersion }

theorem checkSnapshot_run (w : World) (t : String) (row : TxnStateRecord) (keys : List String) :
    (checkSnapshot t row keys).run World.exec w =
      match w.store.newerKey row.snapshotVersion keys with
      | none => (.ok (), w)
      | some key =>
        let latest := (w.store.readChain key).latestCommitVersion
        (.error (.conflict (Store.snapshotConflict key row.snapshotVersion latest)),
          w.refused t row ("snapshot conflict on " ++ key ++ ": our snapshot " ++
            toString row.snapshotVersion ++ ", chain latest " ++ toString latest)) := by
  induction keys with
  | nil => rfl
  | cons key rest ih =>
    have hexec : w.exec (.readChain key) = (w.store.readChain key, w) := rfl
    by_cases hnew : (w.store.readChain key).entries ≠ [] ∧ row.snapshotVersion < (w.store.readChain key).latestCommitVersion
    · simp only [checkSnapshot, Prog.perform, bind_eq, act_bind, ret_bind, run_act, hexec, gt_iff_lt, if_pos hnew,
        Store.newerKey, List.find?_cons, decide_eq_true hnew]
      rfl
    · simp only [checkSnapshot, Prog.perform, bind_eq, act_bind, ret_bind, run_act, hexec, gt_iff_lt, if_neg hnew,
        Store.newerKey, List.find?_cons, decide_eq_false hnew]
      exact ih

/-- The row is `Committing`. -/
def World.claimed (t : String) (row : TxnStateRecord) (w : World) : World :=
  { w with store := w.store.putTxnState t { row with status := .committing } }

/-- The entries that a commit appends to the chains. -/
def chainEntries (t : String) (row : TxnStateRecord) (ws : WriteSet) (v : Nat) :
    List (String × VersionEntry × Nat) :=
  (row.withAlloc v).allocVersions.map fun x => (x.1, chainEntry t ws x.1 x.2, row.snapshotVersion)

/-- The store of a commit up to the `Committed` row. -/
def Store.published (t : String) (row : TxnStateRecord) (ws : WriteSet) (v : Nat) (s : Store) :
    Store :=
  let s := (s.appendWal (.committing t (row.writeKeys.insertionSort (· ≤ ·)))).2
  let s := s.putTxnState t { row.withAlloc v with status := .committing }
  let s := (s.appendChainEntriesBulk (chainEntries t row ws v)).2
  let s := s.putVersionsBulk ((row.withAlloc v).allocVersions.map fun x => (x.1, versionRecord t ws x.1 x.2))
  let s := ((s.appendWal (.committed t v)).2.appendWal (.commitResult t v true)).2
  s.putTxnState t { row.withAlloc v with status := .committed }

/-- The memtables after the writes of a commit. -/
def MemTableSet.published (t : String) (v : Nat) (bodies : Table String Bytes) (aged : String → Bool) (m : MemTableSet)
    (ws : WriteSet) : MemTableSet :=
  ws.foldl (fun m x => (m.putInvisible (memEntry t v bodies x.1 x.2) (aged x.1)).publish (memKey x.1) v) m

/-- What the hook of a commit is told. -/
def commitEvent (t : String) (row : TxnStateRecord) (ws : WriteSet) (v : Nat) : CommitEvent :=
  ⟨t, v, (chainEntries t row ws v).map commitWrite⟩

def Store.indexRecord (env : Env) (ev : CommitEvent) (s : Store) (rk : RecordKey) (backendKey : String)
    (deleted : Bool) (schemaVersion : Nat) (body : Value) : Store :=
  s.putRecordIndexWithBody rk
    ⟨Engine.pickRecordVersion ev.writes backendKey 0, deleted, backendKey, schemaVersion, ev.txnId⟩
    (env.jsonText body) (utf8 (env.jsonText body))

def Store.indexPendingRecord (env : Env) (ev : CommitEvent) (s : Store) (r : PendingRecord) : Store :=
  s.indexRecord env ev (r.space, r.table, r.recordId) r.backendKey r.deleted r.schemaVersion r.body

def Store.indexPendingSchema (env : Env) (ev : CommitEvent) (s : Store) (p : PendingSchema) : Store :=
  let s := s.putSchemaIndex p.space p.name ⟨p.version, p.backendKey⟩
  match Engine.schemaRecordKeyParts p.backendKey with
  | some rk => s.indexRecord env ev rk p.backendKey false p.version p.body
  | none => s

/-- The index rows of a committed transaction. -/
def Store.indexed (env : Env) (ev : CommitEvent) (taken : PendingTxn) (s : Store) : Store :=
  taken.schemas.foldl (Store.indexPendingSchema env ev) (taken.records.foldl (Store.indexPendingRecord env ev) s)

theorem postCommitHook_run (env : Env) (ev : CommitEvent) (w : World) :
    (Engine.postCommitHook env ev).run World.exec w =
      (.ok (), { w with
        store := w.store.indexed env ev (w.pendingOf ev.txnId)
        pending := w.pending.erase ev.txnId }) := by
  have hfold : ∀ {β : Type} (l : List β) (f : β → Server Unit) (step : Store → β → Store) (w : World),
      (∀ b w, (f b).run World.exec w = (.ok (), { w with store := step w.store b })) →
      (forEach l f).run World.exec w = (.ok (), { w with store := l.foldl step w.store }) := by
    intro β l f step w hf
    induction l generalizing w with
    | nil => rfl
    | cons b bs ih =>
      rw [forEach, run_bind_ok World.exec (hf b w)]
      exact ih _
  have hrecord : ∀ (r : PendingRecord) (w : World),
      (Engine.indexRecord env ev (r.space, r.table, r.recordId) r.backendKey r.deleted r.schemaVersion r.body).run
        World.exec w = (.ok (), { w with store := w.store.indexPendingRecord env ev r }) := fun _ _ => rfl
  have hschema : ∀ (p : PendingSchema) (w : World),
      (Engine.indexSchema env ev p).run World.exec w = (.ok (), { w with store := w.store.indexPendingSchema env ev p }) := by
    intro p w
    cases hparts : Engine.schemaRecordKeyParts p.backendKey <;>
      simp [Engine.indexSchema, Store.indexPendingSchema, hparts, Prog.perform, World.exec, World.setStore,
        Engine.indexRecord, Store.indexRecord]
  have htake : w.exec (.pendingTake ev.txnId) = (w.pendingOf ev.txnId, { w with pending := w.pending.erase ev.txnId }) := rfl
  simp only [Engine.postCommitHook, Prog.perform, bind_eq, act_bind, ret_bind, run_act, htake]
  rw [run_bind_ok World.exec (hfold _ _ _ _ hrecord)]
  exact hfold _ _ _ _ hschema

/-- Drop a spilled body of a committed write, and its row. -/
def World.dropSpilled (t : String) (w : World) (x : String × WriteSetEntry) : World :=
  match x.2.bodyHandle with
  | some handle => { w.dropBlob handle with store := (w.dropBlob handle).store.deleteWriteEntry t x.2.backendKey }
  | none => w

theorem dropSpilled_run (t : String) (x : String × WriteSetEntry) (w : World) :
    (Coordinator.dropSpilled t x.2).run World.exec w = (.ok (), w.dropSpilled t x) := by
  cases hh : x.2.bodyHandle with
  | none => simp [Coordinator.dropSpilled, World.dropSpilled, hh]
  | some handle =>
    cases hb : w.store.getBlob handle <;>
      simp [Coordinator.dropSpilled, World.dropSpilled, World.dropBlob, hh, hb, Prog.perform, World.exec, World.setStore]

theorem publishWrites_run (t : String) (v : Nat) (bodies : Table String Bytes) (aged : String → Bool)
    (ws : WriteSet) (w : World) :
    (publishWrites t v bodies aged ws).run World.exec w =
      (.ok (), { w with mems := w.mems.published t v bodies aged ws }) := by
  induction ws generalizing w with
  | nil => rfl
  | cons x rest ih => exact ih _

/-- A transaction is committed: stored, published, indexed, and its spilled bodies dropped. -/
def World.published (env : Env) (aged : String → Bool) (t : String) (row : TxnStateRecord)
    (ws : WriteSet) (bodies : Table String Bytes) (v : Nat) (w : World) : World :=
  ws.foldl (World.dropSpilled t)
    { w with
      store := ((w.store.published t row ws v).indexed env (commitEvent t row ws v)
        (w.pendingOf t)).unregisterSnapshot row.snapshotVersion
      locks := w.locks.markCommitted t v
      mems := w.mems.published t v bodies aged ws
      pending := w.pending.erase t }

/-- The chains take the entries of a commit. -/
def Store.Takes (s : Store) (t : String) (row : TxnStateRecord) (ws : WriteSet) (v : Nat) : Prop :=
  (((s.appendWal (.committing t (row.writeKeys.insertionSort (· ≤ ·)))).2.putTxnState t
    { row.withAlloc v with status := .committing }).appendChainEntriesBulk (chainEntries t row ws v)).1 = .ok ()

theorem publish_run (env : Env) (aged : String → Bool) (bodies : Table String Bytes)
    (htakes : w.store.Takes t row ws v) :
    (publish (Engine.postCommitHook env) aged t { row with status := .committing } ws bodies
      (row.writeKeys.insertionSort (· ≤ ·)) v).run World.exec w = (.ok v, w.published env aged t row ws bodies v) := by
  let w₁ : World := { w with
    store := (w.store.appendWal (.committing t (row.writeKeys.insertionSort (· ≤ ·)))).2.putTxnState t
      { row.withAlloc v with status := .committing } }
  have happend : w₁.exec (.appendChainEntriesBulk (chainEntries t row ws v)) =
      (.ok (), { w₁ with store := (w₁.store.appendChainEntriesBulk (chainEntries t row ws v)).2 }) := by
    rw [← htakes]
    rfl
  unfold publish
  simp only [Prog.perform, bind_eq, act_bind, ret_bind, run_act]
  generalize hx : World.exec (.appendChainEntriesBulk _) _ = x
  obtain rfl : x = _ := hx.symm.trans happend
  simp only [run_act]
  rw [run_bind_ok World.exec (publishWrites_run t v bodies aged ws _)]
  simp only [run_act]
  rw [run_bind_ok World.exec (postCommitHook_run env _ _)]
  simp only [run_act]
  rw [run_bind_ok World.exec (run_forEach World.exec fun x _ w => dropSpilled_run t x w)]
  rfl

theorem Store.newerKey_none {s : Store} {snap : Nat} {keys : List String} (h : s.newerKey snap keys = none)
    (hkey : key ∈ keys) {e : VersionEntry} (he : e ∈ (s.readChain key).entries.getLast?) : e.commitVersion ≤ snap := by
  have hnone := List.find?_eq_none.1 h key hkey
  simp only [decide_eq_true_eq, not_and, not_lt] at hnone
  have hlast : (s.readChain key).entries.getLast? = some e := he
  have hne : (s.readChain key).entries ≠ [] := by
    intro hnil
    simp [hnil] at hlast
  simpa [VersionChain.latestCommitVersion, hlast] using hnone hne

theorem Store.newerKey_some {s : Store} {snap : Nat} {keys : List String} (h : s.newerKey snap keys = some key) :
    key ∈ keys ∧ snap < (s.readChain key).latestCommitVersion := by
  have hfound := List.find?_some h
  simp only [decide_eq_true_eq] at hfound
  exact ⟨List.mem_of_find?_eq_some h, hfound.2⟩

theorem mem_chainEntries {item : String × VersionEntry × Nat} :
    item ∈ chainEntries t row ws v ↔
      item.1 ∈ row.writeKeys ∧ item.2 = (chainEntry t ws item.1 v, row.snapshotVersion) := by
  obtain ⟨k, e, n⟩ := item
  simp only [chainEntries, TxnStateRecord.withAlloc, List.map_map, List.mem_map, List.mem_insertionSort,
    Function.comp_apply, Prod.mk.injEq]
  constructor
  · rintro ⟨k', hk', rfl, rfl, rfl⟩
    exact ⟨hk', rfl, rfl⟩
  · rintro ⟨hk, rfl, rfl⟩
    exact ⟨k, hk, rfl, rfl, rfl⟩

theorem chainEntries_keys : (chainEntries t row ws v).map (·.1) = row.writeKeys.insertionSort (· ≤ ·) := by
  simp [chainEntries, TxnStateRecord.withAlloc, Function.comp_def]

theorem filter_chainEntries (hnodup : row.writeKeys.Nodup) (k : String) :
    ((chainEntries t row ws v).filter (·.1 = k)).map (·.2.1) =
      if k ∈ row.writeKeys then [chainEntry t ws k v] else [] := by
  have hkeys : ((chainEntries t row ws v).map (·.1)).Nodup := by
    rw [chainEntries_keys]
    exact (List.perm_insertionSort _ _).nodup_iff.2 hnodup
  have hle := Store.length_filter_key_le_one hkeys k
  split
  case isTrue hk =>
    have hmem : (k, chainEntry t ws k v, row.snapshotVersion) ∈ (chainEntries t row ws v).filter (·.1 = k) := by
      rw [List.mem_filter, mem_chainEntries]
      exact ⟨⟨hk, rfl⟩, by simp⟩
    obtain ⟨x, hx⟩ := List.length_eq_one_iff.1 (le_antisymm hle (List.length_pos_of_mem hmem))
    rw [hx, List.mem_singleton] at hmem
    rw [hx, ← hmem]
    rfl
  case isFalse hk =>
    rw [List.filter_eq_nil_iff.2, List.map_nil]
    intro x hx hxk
    have hxk' : x.1 = k := of_decide_eq_true hxk
    exact hk (hxk' ▸ (mem_chainEntries.1 hx).1)

theorem Store.append_of_newerKey {s : Store} (hnodup : row.writeKeys.Nodup)
    (hnone : s.newerKey row.snapshotVersion row.writeKeys = none) (hv : row.writeKeys ≠ [] → row.snapshotVersion < v) :
    (s.appendChainEntriesBulk (chainEntries t row ws v)).1 = .ok () ∧
      ∀ k, ((s.appendChainEntriesBulk (chainEntries t row ws v)).2.readChain k).entries =
        (s.readChain k).entries ++ if k ∈ row.writeKeys then [chainEntry t ws k v] else [] := by
  have hkeys : ((chainEntries t row ws v).map (·.1)).Nodup := by
    rw [chainEntries_keys]
    exact (List.perm_insertionSort _ _).nodup_iff.2 hnodup
  have hfresh : ∀ item ∈ chainEntries t row ws v, ∀ e ∈ (s.ledger.chain item.1).getLast?,
      e.commitVersion ≤ item.2.2 ∧ e.commitVersion < item.2.1.commitVersion := by
    intro item hitem e he
    obtain ⟨hkey, heq⟩ := mem_chainEntries.1 hitem
    rw [heq, chainEntry_commitVersion]
    have hle := Store.newerKey_none hnone hkey he
    exact ⟨hle, lt_of_le_of_lt hle (hv (List.ne_nil_of_mem hkey))⟩
  obtain ⟨hok, hledger⟩ := Store.ledger_appendChainEntriesBulk hkeys hfresh
  refine ⟨hok, fun k => ?_⟩
  have hchain := congrFun (congrArg Ledger.chain hledger) k
  rw [← filter_chainEntries hnodup]
  exact hchain

/-- What `commit` answers on a row that is not `Active`. -/
def TxnStateRecord.replayed (row : TxnStateRecord) : Except XtableError Nat :=
  match row.status with
  | .committed => .ok row.lastVersion
  | .aborted => .error (TxnError.aborted "txn already aborted").into
  | status => .error (TxnError.invalidState ("txn in " ++ status.debug ++ " state")).into

theorem replay_run (row : TxnStateRecord) (w : World) : (replay row).run World.exec w = (row.replayed, w) := by
  unfold replay TxnStateRecord.replayed
  cases row.status <;> rfl

theorem claim_run_active (hrow : w.store.getTxnState t = some row) (hst : row.status = .active) :
    (claim t).run World.exec w = (.ok none, w.claimed t row) := by
  simp only [claim, Prog.perform, bind_eq, act_bind, ret_bind, run_act, exec_getTxnState, hrow, hst,
    exec_claim hrow hst, if_true]
  rfl

theorem claim_run_other (hrow : w.store.getTxnState t = some row) (hst : row.status ≠ .active) :
    (claim t).run World.exec w = (row.replayed.map some, w) := by
  simp only [claim, Prog.perform, bind_eq, act_bind, ret_bind, run_act, exec_getTxnState, hrow, hst, if_false]
  cases hr : row.replayed with
  | error x => exact run_bind_error World.exec ((replay_run row w).trans (by rw [hr]))
  | ok v => exact run_bind_ok World.exec ((replay_run row w).trans (by rw [hr]))

theorem reconcile_settled (hrow : w.store.getTxnState t = some row) (hst : row.status ≠ .committing) (x : XtableError) :
    (reconcileFailedCommit t x).run World.exec w = (.ok (), w) := by
  simp only [reconcileFailedCommit, Prog.perform, bind_eq, act_bind, ret_bind, run_act, exec_getTxnState, hrow, hst,
    if_false]
  rfl

theorem reconcile_unpublished (hrow : w.store.getTxnState t = some row) (hst : row.status = .committing)
    (halloc : row.allocVersions = []) (x : XtableError) :
    (reconcileFailedCommit t x).run World.exec w =
      (.ok (), (w.refused t row ("commit failed before publish: " ++ x.display)).forget t) := by
  simp only [reconcileFailedCommit, Prog.perform, bind_eq, act_bind, ret_bind, run_act, exec_getTxnState, hrow, hst,
    halloc, if_true]
  rfl

/-- The version of a commit: the next one if it writes, its snapshot otherwise. -/
def World.nextVersion (w : World) (row : TxnStateRecord) : Nat :=
  if row.writeKeys = [] then row.snapshotVersion else w.store.globalVersion + 1

/-- The version counter after a commit has drawn its version. -/
def World.bumped (w : World) (row : TxnStateRecord) : World :=
  if row.writeKeys = [] then w else { w with store := w.store.nextGlobalVersion.2 }

/-- The ways a commit can end that runs alone. -/
inductive Commits (env : Env) (aged : String → Bool) (t : String) (w : World) : Except XtableError Nat → World → Prop where
  | unknown (hrow : w.store.getTxnState t = none) : Commits env aged t w (.error (TxnError.unknownTxn t).into) w
  | settled {row : TxnStateRecord} {r : Except XtableError Nat} (hrow : w.store.getTxnState t = some row)
      (hst : row.status ≠ .active) (hr : r = row.replayed) : Commits env aged t w r w
  | unstaged {row : TxnStateRecord} {x : XtableError} (hrow : w.store.getTxnState t = some row)
      (hst : row.status = .active) (hbodies : w.stagedBodies ∅ (w.store.iterWriteSet t) = .error x) :
      Commits env aged t w (.error x)
        (((w.claimed t row).refused t row ("commit failed before publish: " ++ x.display)).forget t)
  | dangerous {row : TxnStateRecord} {bodies : Table String Bytes} {peer : String}
      (hrow : w.store.getTxnState t = some row) (hst : row.status = .active)
      (hbodies : w.stagedBodies ∅ (w.store.iterWriteSet t) = .ok bodies)
      (hpeer : w.locks.findDangerousStructure t = some peer) :
      Commits env aged t w (.error (TxnError.conflict ("SSI cycle with " ++ peer)).into)
        (((w.claimed t row).refused t row ("Cahill cycle with " ++ peer)).forget t)
  | conflict {row : TxnStateRecord} {bodies : Table String Bytes} {key : String} {reason : String}
      (hrow : w.store.getTxnState t = some row) (hst : row.status = .active)
      (hbodies : w.stagedBodies ∅ (w.store.iterWriteSet t) = .ok bodies)
      (hpeer : w.locks.findDangerousStructure t = none)
      (hkey : w.store.newerKey row.snapshotVersion (row.writeKeys.insertionSort (· ≤ ·)) = some key) :
      Commits env aged t w
        (.error (.conflict (Store.snapshotConflict key row.snapshotVersion (w.store.readChain key).latestCommitVersion)))
        (((w.claimed t row).bumped row).refused t row reason)
  | published {row : TxnStateRecord} {bodies : Table String Bytes} (hrow : w.store.getTxnState t = some row)
      (hst : row.status = .active) (hbodies : w.stagedBodies ∅ (w.store.iterWriteSet t) = .ok bodies)
      (hpeer : w.locks.findDangerousStructure t = none)
      (hkey : w.store.newerKey row.snapshotVersion (row.writeKeys.insertionSort (· ≤ ·)) = none) :
      Commits env aged t w (.ok (w.nextVersion row))
        (((w.claimed t row).bumped row).published env aged t row (w.store.iterWriteSet t) bodies (w.nextVersion row))

theorem stagedBodies_congr (w w' : World) (hblobs : w'.store.stagedBlobs = w.store.stagedBlobs) (hfiles : w'.files = w.files)
    (bodies : Table String Bytes) (ws : WriteSet) : w'.stagedBodies bodies ws = w.stagedBodies bodies ws := by
  have hbody : ∀ we, w'.stagedBody we = w.stagedBody we := by
    intro we
    simp only [World.stagedBody, Store.getBlob, hblobs, hfiles]
  induction ws generalizing bodies with
  | nil => rfl
  | cons x rest ih => simp only [World.stagedBodies, hbody, ih]

theorem Store.newerKey_insertionSort {s : Store} {snap : Nat} {keys : List String}
    (h : s.newerKey snap (keys.insertionSort (· ≤ ·)) = none) : s.newerKey snap keys = none := by
  rw [Store.newerKey, List.find?_eq_none] at h ⊢
  exact fun key hkey => h key ((List.mem_insertionSort _).2 hkey)

/-- A row that a commit can start from. -/
structure World.Committable (w : World) (row : TxnStateRecord) : Prop where
  alloc : row.allocVersions = []
  nodup : row.writeKeys.Nodup
  snapshot : row.snapshotVersion ≤ w.store.globalVersion

theorem insertionSort_eq_nil {l : List String} : l.insertionSort (· ≤ ·) = [] ↔ l = [] := by
  rw [← List.length_eq_zero_iff, List.length_insertionSort, List.length_eq_zero_iff]

theorem draw_run {α : Type} (w : World) (row : TxnStateRecord) (f : Nat → Server α) :
    (if row.writeKeys.insertionSort (· ≤ ·) = [] then Prog.bind (pure row.snapshotVersion) f
      else Prog.act .nextGlobalVersion f).run World.exec w = (f (w.nextVersion row)).run World.exec (w.bumped row) := by
  by_cases hkeys : row.writeKeys = []
  · simp [World.nextVersion, World.bumped, hkeys]
  · simp [insertionSort_eq_nil, World.nextVersion, World.bumped, hkeys, World.exec, World.onStore,
      Store.nextGlobalVersion]

theorem readChain_bumped (w : World) (row : TxnStateRecord) (k : String) :
    (w.bumped row).store.readChain k = w.store.readChain k := by
  unfold World.bumped
  split <;> rfl

theorem commitOwned_run (env : Env) (aged : String → Bool) (t : String) (hok : w.Committable row) :
    let w₁ := w.claimed t row
    let owned := (commitOwned (Engine.postCommitHook env) aged t).run World.exec w₁
    match w.stagedBodies ∅ (w.store.iterWriteSet t) with
    | .error x => owned = (.error x, w₁)
    | .ok bodies =>
      match w.locks.findDangerousStructure t with
      | some peer => owned = (.error (TxnError.conflict ("SSI cycle with " ++ peer)).into,
          (w₁.refused t row ("Cahill cycle with " ++ peer)).forget t)
      | none =>
        match w.store.newerKey row.snapshotVersion (row.writeKeys.insertionSort (· ≤ ·)) with
        | some key => ∃ reason, owned = (.error (.conflict (Store.snapshotConflict key row.snapshotVersion
            (w.store.readChain key).latestCommitVersion)), (w₁.bumped row).refused t row reason)
        | none => owned = (.ok (w.nextVersion row),
            (w₁.bumped row).published env aged t row (w.store.iterWriteSet t) bodies (w.nextVersion row)) := by
  intro w₁ owned
  have hrow₁ : w₁.store.getTxnState t = some { row with status := .committing } := by
    simp [w₁, World.claimed, Store.getTxnState, Store.putTxnState]
  have hws : w₁.store.iterWriteSet t = w.store.iterWriteSet t := rfl
  have hmat := materialize_run w₁ ∅ (w.store.iterWriteSet t)
  have hsame : w₁.stagedBodies ∅ (w.store.iterWriteSet t) = w.stagedBodies ∅ (w.store.iterWriteSet t) :=
    stagedBodies_congr w w₁ rfl rfl _ _
  rw [hsame] at hmat
  have hdetect : w₁.exec (.findDangerousStructure t) = (w.locks.findDangerousStructure t, w₁) := rfl
  simp only [owned, commitOwned, Prog.perform, bind_eq, act_bind, ret_bind, run_act, exec_getTxnState, hrow₁,
    exec_iterWriteSet, hws]
  cases hbodies : w.stagedBodies ∅ (w.store.iterWriteSet t) with
  | error x =>
    rw [hbodies] at hmat
    exact run_bind_error World.exec hmat
  | ok bodies =>
    rw [hbodies] at hmat
    simp only [run_bind_ok World.exec hmat, run_act, hdetect]
    cases hpeer : w.locks.findDangerousStructure t with
    | some peer => rfl
    | none =>
      simp only [draw_run]
      have hchains : ∀ k, (w₁.bumped row).store.readChain k = w.store.readChain k := readChain_bumped w₁ row
      have hcheck := checkSnapshot_run (w₁.bumped row) t { row with status := .committing }
        (row.writeKeys.insertionSort (· ≤ ·))
      have hnewer : (w₁.bumped row).store.newerKey row.snapshotVersion (row.writeKeys.insertionSort (· ≤ ·)) =
          w.store.newerKey row.snapshotVersion (row.writeKeys.insertionSort (· ≤ ·)) := by
        simp only [Store.newerKey, hchains]
      simp only [hnewer, hchains] at hcheck
      cases hkey : w.store.newerKey row.snapshotVersion (row.writeKeys.insertionSort (· ≤ ·)) with
      | some key =>
        rw [hkey] at hcheck
        exact ⟨_, run_bind_error World.exec hcheck⟩
      | none =>
        rw [hkey] at hcheck
        refine (run_bind_ok World.exec hcheck).trans (publish_run env aged bodies ?_)
        refine (Store.append_of_newerKey hok.nodup (Store.newerKey_insertionSort ?_) fun hne => ?_).1
        · rw [← hkey, ← hnewer]
          rfl
        · have hv : w.nextVersion row = w.store.globalVersion + 1 := if_neg hne
          exact hv ▸ Nat.lt_succ_of_le hok.snapshot

section Claimed

variable {aged : String → Bool} {w' w'' : World}

theorem commit_run_ok (hrow : w.store.getTxnState t = some row) (hst : row.status = .active)
    (howned : (commitOwned (Engine.postCommitHook env) aged t).run World.exec (w.claimed t row) = (.ok v, w')) :
    (commit (Engine.postCommitHook env) aged t).run World.exec w = (.ok v, w') := by
  have hattempt := run_attempt World.exec (commitOwned (Engine.postCommitHook env) aged t) (w.claimed t row)
  rw [howned] at hattempt
  unfold commit
  rw [bind_eq, run_bind_ok World.exec (claim_run_active hrow hst)]
  exact run_bind_ok World.exec hattempt

theorem commit_run_error {x : XtableError} (hrow : w.store.getTxnState t = some row) (hst : row.status = .active)
    (howned : (commitOwned (Engine.postCommitHook env) aged t).run World.exec (w.claimed t row) = (.error x, w'))
    (hrec : (reconcileFailedCommit t x).run World.exec w' = (.ok (), w'')) :
    (commit (Engine.postCommitHook env) aged t).run World.exec w = (.error x, w'') := by
  have hattempt := run_attempt World.exec (commitOwned (Engine.postCommitHook env) aged t) (w.claimed t row)
  rw [howned] at hattempt
  unfold commit
  rw [bind_eq, run_bind_ok World.exec (claim_run_active hrow hst)]
  exact (run_bind_ok World.exec hattempt).trans (run_bind_ok World.exec hrec)

theorem reconcile_refused (w : World) (t : String) (row : TxnStateRecord) (reason : String) (x : XtableError) :
    (reconcileFailedCommit t x).run World.exec (w.refused t row reason) = (.ok (), w.refused t row reason) := by
  have hrow : (w.refused t row reason).store.getTxnState t = some { row with status := .aborted } := by
    simp only [World.refused, Store.unregisterSnapshot]
    split <;> simp [Store.getTxnState, Store.putTxnState]
  exact reconcile_settled hrow (by simp) x

theorem reconcile_refused_forget (w : World) (t : String) (row : TxnStateRecord) (reason : String) (x : XtableError) :
    (reconcileFailedCommit t x).run World.exec ((w.refused t row reason).forget t) =
      (.ok (), (w.refused t row reason).forget t) := by
  have hrow : ((w.refused t row reason).forget t).store.getTxnState t = some { row with status := .aborted } := by
    simp only [World.forget, World.refused, Store.unregisterSnapshot]
    split <;> simp [Store.getTxnState, Store.putTxnState]
  exact reconcile_settled hrow (by simp) x

end Claimed

theorem commit_alone (env : Env) (aged : String → Bool) (w : World) (t : String)
    (hok : ∀ row, w.store.getTxnState t = some row → row.status = .active → w.Committable row) :
    Commits env aged t w ((commit (Engine.postCommitHook env) aged t).run World.exec w).1
      ((commit (Engine.postCommitHook env) aged t).run World.exec w).2 := by
  cases hrow : w.store.getTxnState t with
  | none =>
    have hrun : (commit (Engine.postCommitHook env) aged t).run World.exec w =
        (.error (TxnError.unknownTxn t).into, w) := by
      simp [commit, claim, Prog.perform, exec_getTxnState, hrow]
    rw [hrun]
    exact .unknown hrow
  | some row =>
    by_cases hst : row.status = .active
    · have howned := commitOwned_run env aged t (hok row hrow hst)
      simp only at howned
      cases hbodies : w.stagedBodies ∅ (w.store.iterWriteSet t) with
      | error x =>
        rw [hbodies] at howned
        have hrow₁ : (w.claimed t row).store.getTxnState t = some { row with status := .committing } := by
          simp [World.claimed, Store.getTxnState, Store.putTxnState]
        rw [commit_run_error hrow hst howned (reconcile_unpublished hrow₁ rfl (hok row hrow hst).alloc x)]
        have hend : Commits env aged t w (.error x)
          (((w.claimed t row).refused t row ("commit failed before publish: " ++ x.display)).forget t) :=
          .unstaged hrow hst hbodies
        exact hend
      | ok bodies =>
        rw [hbodies] at howned
        simp only at howned
        cases hpeer : w.locks.findDangerousStructure t with
        | some peer =>
          rw [hpeer] at howned
          rw [commit_run_error hrow hst howned (reconcile_refused_forget _ _ _ _ _)]
          exact .dangerous hrow hst hbodies hpeer
        | none =>
          rw [hpeer] at howned
          simp only at howned
          cases hkey : w.store.newerKey row.snapshotVersion (row.writeKeys.insertionSort (· ≤ ·)) with
          | some key =>
            rw [hkey] at howned
            obtain ⟨reason, howned⟩ := howned
            rw [commit_run_error hrow hst howned (reconcile_refused _ _ _ _ _)]
            exact .conflict hrow hst hbodies hpeer hkey
          | none =>
            rw [hkey] at howned
            rw [commit_run_ok hrow hst howned]
            exact .published hrow hst hbodies hpeer hkey
    · have hrun : (commit (Engine.postCommitHook env) aged t).run World.exec w = (row.replayed, w) := by
        have hclaim := claim_run_other hrow hst
        unfold commit
        cases hr : row.replayed with
        | error x =>
          rw [hr] at hclaim
          exact run_bind_error World.exec hclaim
        | ok v =>
          rw [hr] at hclaim
          exact run_bind_ok World.exec hclaim
      rw [hrun]
      exact .settled hrow hst rfl

/-! ## What the effects leave alone -/

section Frame

theorem foldl_keeps {α β γ : Type} {f : α → β → α} (P : α → γ) (h : ∀ a b, P (f a b) = P a) (l : List β) (a : α) :
    P (l.foldl f a) = P a := by
  induction l generalizing a with
  | nil => rfl
  | cons b bs ih => exact (ih (f a b)).trans (h a b)

variable {ws : WriteSet} {bodies : Table String Bytes} {aged : String → Bool} {v : Nat} {s : Store}

/-- The part of the store that staged bodies and their rows are no part of. -/
def Store.unstaged (s : Store) : Store := { s with stagedBlobs := ∅, writeSet := ∅ }

/-- The part of the process state that staged bodies are no part of. -/
def World.unstaged (w : World) : World := { w with store := w.store.unstaged, files := ∅ }

theorem unstaged_dropSpilled (w : World) (x : String × WriteSetEntry) : (w.dropSpilled t x).unstaged = w.unstaged := by
  unfold World.dropSpilled
  split <;> rfl

theorem unstaged_dropStaged (w : World) (x : String × WriteSetEntry) : (w.dropStaged t x).unstaged = w.unstaged := by
  unfold World.dropStaged
  cases x.2.bodyHandle <;> rfl

/-- The part of the store that the chains are no part of. -/
def Store.unchained (s : Store) : Store := { s with versionChains := ∅ }

theorem unchained_append (s : Store) (items : List (String × VersionEntry × Nat)) :
    (s.appendChainEntriesBulk items).2.unchained = s.unchained := by
  unfold Store.appendChainEntriesBulk
  split <;> rfl

/-- The part of the store that the indexes are no part of. -/
def Store.unindexed (s : Store) : Store := { s with recordIndex := ∅, recordVersions := ∅, schemaIndex := ∅ }

theorem unindexed_indexed (env : Env) (ev : CommitEvent) (taken : PendingTxn) (s : Store) :
    (s.indexed env ev taken).unindexed = s.unindexed := by
  unfold Store.indexed
  rw [foldl_keeps Store.unindexed, foldl_keeps Store.unindexed]
  · exact fun _ _ => rfl
  · intro s p
    unfold Store.indexPendingSchema
    split <;> rfl

/-- The part of the store that the registry of snapshots is no part of. -/
def Store.unpinned (s : Store) : Store := { s with activeSnapshots := ∅ }

theorem unpinned_unregister (s : Store) (snap : Nat) : (s.unregisterSnapshot snap).unpinned = s.unpinned := by
  unfold Store.unregisterSnapshot
  simp only
  split <;> rfl

theorem unstaged_published (w : World) : (w.published env aged t row ws bodies v).unstaged =
    World.unstaged { w with
      store := ((w.store.published t row ws v).indexed env (commitEvent t row ws v)
        (w.pendingOf t)).unregisterSnapshot row.snapshotVersion
      locks := w.locks.markCommitted t v
      mems := w.mems.published t v bodies aged ws
      pending := w.pending.erase t } :=
  foldl_keeps World.unstaged unstaged_dropSpilled ws _

theorem locks_published (w : World) : (w.published env aged t row ws bodies v).locks = w.locks.markCommitted t v :=
  congrArg World.locks (unstaged_published w)

theorem pending_published (w : World) : (w.published env aged t row ws bodies v).pending = w.pending.erase t :=
  congrArg World.pending (unstaged_published w)

theorem mems_published (w : World) :
    (w.published env aged t row ws bodies v).mems = w.mems.published t v bodies aged ws :=
  congrArg World.mems (unstaged_published w)

theorem indexed_frame {γ : Type} (F : Store → γ) (hindexed : ∀ s, F (Store.unindexed s) = F s)
    (hpinned : ∀ s, F (Store.unpinned s) = F s) (ev : CommitEvent) (taken : PendingTxn) (snap : Nat) (s : Store) :
    F ((s.indexed env ev taken).unregisterSnapshot snap) = F s := by
  rw [← hpinned, unpinned_unregister, hpinned, ← hindexed, unindexed_indexed, hindexed]

theorem published_frame {γ : Type} (F : Store → γ) (hstaged : ∀ s, F (Store.unstaged s) = F s)
    (hindexed : ∀ s, F (Store.unindexed s) = F s) (hpinned : ∀ s, F (Store.unpinned s) = F s) (w : World) :
    F (w.published env aged t row ws bodies v).store = F (w.store.published t row ws v) := by
  have hstore : F (w.published env aged t row ws bodies v).unstaged.store = _ :=
    congrArg (fun w : World => F w.store) (unstaged_published w)
  simp only [World.unstaged, hstaged] at hstore
  rw [hstore, indexed_frame F hindexed hpinned]

/-- The part of the store that the rows, the log and the versions of objects are no part of. -/
def Store.uncommitted (s : Store) : Store :=
  { s with lastWalSeq := 0, wal := ∅, txnState := ∅, versions := ∅, versionChains := ∅ }

theorem uncommitted_published (t : String) (row : TxnStateRecord) (ws : WriteSet) (v : Nat)
    (s : Store) : (s.published t row ws v).uncommitted = s.uncommitted := by
  let s₁ := (s.appendWal (.committing t (row.writeKeys.insertionSort (· ≤ ·)))).2.putTxnState t
    { row.withAlloc v with status := .committing }
  have hchain := congrArg Store.uncommitted (unchained_append s₁ (chainEntries t row ws v))
  exact hchain

theorem txnState_published (s : Store) (t' : String) : (s.published t row ws v).getTxnState t' =
    if t = t' then some { row.withAlloc v with status := .committed } else s.getTxnState t' := by
  have hkeep : ∀ (s : Store) items, (s.appendChainEntriesBulk items).2.txnState = s.txnState := by
    intro s items
    have hchain := congrArg Store.txnState (unchained_append s items)
    exact hchain
  simp only [Store.published, Store.getTxnState, Store.putTxnState, Store.appendWal, Store.putVersionsBulk, hkeep,
    Table.get_insert]
  split <;> rfl

theorem foldl_insert_keyed {μ : Type} (f : String → μ) (keys : List String) (m : Table String μ) (k : String) :
    (keys.foldl (fun m key => m.insert key (f key)) m)[k]? = if k ∈ keys then some (f k) else m[k]? := by
  induction keys generalizing m with
  | nil => simp
  | cons key rest ih =>
    rw [List.foldl_cons, ih, Table.get_insert]
    by_cases hk : key = k
    · subst hk
      simp
    · simp [hk, Ne.symm hk]

theorem versions_published (s : Store) (k : String) : (s.published t row ws v).versions[k]? =
    if k ∈ row.writeKeys then some (versionRecord t ws k v) else s.versions[k]? := by
  have hkeep : ∀ (s : Store) items, (s.appendChainEntriesBulk items).2.versions = s.versions := by
    intro s items
    have hchain := congrArg Store.versions (unchained_append s items)
    exact hchain
  simp only [Store.published, Store.putTxnState, Store.appendWal, Store.putVersionsBulk, hkeep,
    TxnStateRecord.withAlloc, List.map_map, List.foldl_map, Function.comp_apply]
  rw [foldl_insert_keyed fun key => versionRecord t ws key v]
  simp only [List.mem_insertionSort]

theorem readChain_published {s : Store} (hnodup : row.writeKeys.Nodup)
    (hnone : s.newerKey row.snapshotVersion row.writeKeys = none) (hv : row.writeKeys ≠ [] → row.snapshotVersion < v)
    (k : String) : ((s.published t row ws v).readChain k).entries =
      (s.readChain k).entries ++ if k ∈ row.writeKeys then [chainEntry t ws k v] else [] := by
  let s₁ := (s.appendWal (.committing t (row.writeKeys.insertionSort (· ≤ ·)))).2.putTxnState t
    { row.withAlloc v with status := .committing }
  have hnone₁ : s₁.newerKey row.snapshotVersion row.writeKeys = none := hnone
  exact (Store.append_of_newerKey hnodup hnone₁ hv).2 k

/-! ### Rows -/

theorem txnState_put (s : Store) (t : String) (row : TxnStateRecord) (t' : String) :
    (s.putTxnState t row).getTxnState t' = if t = t' then some row else s.getTxnState t' :=
  Table.get_insert ..

theorem txnState_begun {idem : Option String} {now : Int} (t' : String) : (w.begun t idem now).store.getTxnState t' =
    if t = t' then some (.newActive w.store.globalVersion idem now) else w.store.getTxnState t' :=
  txnState_put ..

def TxnStateRecord.withWriteKey (row : TxnStateRecord) (key : String) : TxnStateRecord :=
  if key ∈ row.writeKeys then row else row.addWriteKey key

theorem txnState_staged {body : Bytes} {deleted : Bool} (hrow : s.getTxnState t = some row) (t' : String) :
    (s.staged env t key body contentType userMeta deleted row).getTxnState t' =
      if t = t' then some (row.withWriteKey key) else s.getTxnState t' := by
  have hkeep : ∀ rec entry, (((s.spilled env t key body).appendWal rec).2.putWriteEntry t key entry).txnState = s.txnState := by
    intro rec entry
    unfold Store.spilled
    split <;> rfl
  unfold Store.staged TxnStateRecord.withWriteKey Store.getTxnState
  by_cases hkey : key ∈ row.writeKeys
  · simp only [hkey, if_true, hkeep]
    split
    case isTrue h => exact h ▸ hrow
    case isFalse => rfl
  · simp only [hkey, if_false, Store.putTxnState, hkeep, Table.get_insert]

theorem writeSet_staged {body : Bytes} {deleted : Bool} (s : Store) :
    (s.staged env t key body contentType userMeta deleted row).writeSet = s.writeSet.insert (t, key)
      (writeEntry key body (stagedHandle env t key body) contentType userMeta deleted) := by
  unfold Store.staged Store.spilled
  by_cases hkey : key ∈ row.writeKeys <;> by_cases hspill : spillThreshold < body.length <;>
    simp [hkey, hspill, Store.putWriteEntry, Store.appendWal, Store.putBlob, Store.putTxnState]

theorem stagedBlobs_staged {body : Bytes} {deleted : Bool} (s : Store) :
    (s.staged env t key body contentType userMeta deleted row).stagedBlobs =
      if spillThreshold < body.length then
        s.stagedBlobs.insert (spillHandle env t key) ⟨spillPath env (spillHandle env t key), body.length⟩
      else s.stagedBlobs := by
  unfold Store.staged Store.spilled
  by_cases hkey : key ∈ row.writeKeys <;> by_cases hspill : spillThreshold < body.length <;>
    simp [hkey, hspill, Store.putWriteEntry, Store.appendWal, Store.putBlob, Store.putTxnState]

@[simp] theorem TxnStateRecord.withWriteKey_status (row : TxnStateRecord) (key : String) :
    (row.withWriteKey key).status = row.status := by
  unfold withWriteKey
  split <;> rfl

def TxnStateRecord.withReadKey (row : TxnStateRecord) (key : String) : TxnStateRecord :=
  if key ∈ row.readKeys then row else row.addReadKey key

@[simp] theorem TxnStateRecord.withReadKey_status (row : TxnStateRecord) (key : String) :
    (row.withReadKey key).status = row.status := by
  unfold withReadKey
  split <;> rfl

@[simp] theorem TxnStateRecord.withReadKey_writeKeys (row : TxnStateRecord) (key : String) :
    (row.withReadKey key).writeKeys = row.writeKeys := by
  unfold withReadKey
  split <;> rfl

@[simp] theorem TxnStateRecord.withReadKey_snapshotVersion (row : TxnStateRecord) (key : String) :
    (row.withReadKey key).snapshotVersion = row.snapshotVersion := by
  unfold withReadKey
  split <;> rfl

/-- A read stores the row again, also where it has nothing to add to it. -/
theorem noteRead_eq {version : Nat} {etag : String} (hrow : w.store.getTxnState t = some row) :
    w.noteRead t key version etag row = { w with
      store := w.store.putTxnState t (row.withReadKey key)
      locks := w.locks.registerRead t key version etag } := by
  unfold World.noteRead TxnStateRecord.withReadKey
  split
  · rw [Store.putTxnState, Table.insert_self hrow]
  · rfl

theorem txnState_noteRead {version : Nat} {etag : String} (hrow : w.store.getTxnState t = some row) (t' : String) :
    (w.noteRead t key version etag row).store.getTxnState t' =
      if t = t' then some (row.withReadKey key) else w.store.getTxnState t' := by
  rw [noteRead_eq hrow, txnState_put]

theorem txnState_refused (w : World) (reason : String) (t' : String) : (w.refused t row reason).store.getTxnState t' =
    if t = t' then some { row with status := .aborted } else w.store.getTxnState t' := by
  have hpin := congrArg Store.txnState (unpinned_unregister ((w.store.appendWal (.aborted t reason)).2.putTxnState t
    { row with status := .aborted }) row.snapshotVersion)
  have hkeep : (w.refused t row reason).store.txnState = w.store.txnState.insert t { row with status := .aborted } := hpin
  rw [Store.getTxnState, hkeep, Table.get_insert]
  rfl

/-- The part of the store that the log and the registry of snapshots are no part of. -/
def Store.unlogged (s : Store) : Store := { s with lastWalSeq := 0, wal := ∅, activeSnapshots := ∅ }

/-- What an abort leaves of the process state, up to staged bodies, the log and pins. -/
theorem discarded_frame {γ : Type} (F : World → γ) (hstaged : ∀ w, F (World.unstaged w) = F w)
    (hlog : ∀ w : World, F { w with store := w.store.unlogged } = F w) (w : World) (reason : String) :
    F (w.discarded t row reason) = F { w with store := w.store.putTxnState t { row with status := .aborted } } := by
  let w₁ : World := { w with store := w.store.putTxnState t { row with status := .aborted } }
  let w₂ := (w₁.store.iterWriteSet t).foldl (World.dropStaged t) w₁
  have hdrop : F w₂ = F w₁ := by rw [← hstaged, foldl_keeps World.unstaged unstaged_dropStaged, hstaged]
  have hpin := congrArg Store.unlogged
    (unpinned_unregister (w₂.store.appendWal (.aborted t reason)).2 row.snapshotVersion)
  have hsame : { w.discarded t row reason with store := (w.discarded t row reason).store.unlogged } =
      { w₂ with store := w₂.store.unlogged } := congrArg (fun s => { w₂ with store := s }) hpin
  rw [← hlog, hsame, hlog, hdrop]

theorem txnState_discarded (w : World) (reason : String) (t' : String) :
    (w.discarded t row reason).store.getTxnState t' =
      if t = t' then some { row with status := .aborted } else w.store.getTxnState t' :=
  (discarded_frame (fun w => w.store.getTxnState t') (fun _ => rfl) (fun _ => rfl) w reason).trans (txnState_put ..)

theorem locks_discarded (w : World) (reason : String) : (w.discarded t row reason).locks = w.locks :=
  discarded_frame World.locks (fun _ => rfl) (fun _ => rfl) w reason

theorem pending_discarded (w : World) (reason : String) : (w.discarded t row reason).pending = w.pending :=
  discarded_frame World.pending (fun _ => rfl) (fun _ => rfl) w reason

/-- What the abort of each stale transaction keeps, a sweep keeps. -/
theorem sweptStale_keeps {P : World → Prop} (hdiscarded : ∀ u t row, P u → u.store.getTxnState t = some row →
      row.status = .active → P (u.discarded t row "GC: stale txn timeout")) (h : P w) (now timeout : Int) :
    P (w.sweptStale now timeout) := by
  unfold World.sweptStale
  generalize w.store.scanStale (Gc.cutoff now timeout) = stale
  induction stale generalizing w with
  | nil => exact h
  | cons t rest ih =>
    refine ih ?_
    unfold World.expire
    split
    case h_1 row hrow =>
      split
      case isTrue hst => exact hdiscarded w t row h hrow hst
      case isFalse => exact h
    case h_2 => exact h

theorem sweptStale_frame {γ : Type} (F : World → γ) (hF : ∀ w t row reason, F (World.discarded t row reason w) = F w)
    (w : World) (now timeout : Int) : F (w.sweptStale now timeout) = F w :=
  sweptStale_keeps (P := fun u => F u = F w) (fun _ _ _ hu _ _ => (hF ..).trans hu) rfl now timeout

theorem bumped_frame {γ : Type} (F : Store → γ) (hF : ∀ s n, F { s with globalVersion := n } = F s) (w : World) :
    F (w.bumped row).store = F w.store := by
  unfold World.bumped
  split
  · rfl
  · exact hF w.store _

theorem txnState_bumped (w : World) (t' : String) : (w.bumped row).store.getTxnState t' = w.store.getTxnState t' :=
  bumped_frame (fun s => s.getTxnState t') (fun _ _ => rfl) w

theorem locks_bumped (w : World) : (w.bumped row).locks = w.locks := by
  unfold World.bumped
  split <;> rfl

theorem txnState_claimed (w : World) (t' : String) : (w.claimed t row).store.getTxnState t' =
    if t = t' then some { row with status := .committing } else w.store.getTxnState t' :=
  txnState_put ..

theorem txnState_committed (w : World) (t' : String) :
    (((w.claimed t row).bumped row).published env aged t row ws bodies v).store.getTxnState t' =
      if t = t' then some { row.withAlloc v with status := .committed } else w.store.getTxnState t' := by
  rw [published_frame (fun s => s.getTxnState t') (fun _ => rfl) (fun _ => rfl) fun _ => rfl, txnState_published,
    txnState_bumped, txnState_claimed]
  split <;> rfl

/-- A commit leaves the rows as they are, where it does not find an active one, or settles its own. -/
theorem Commits.rows {r : Except XtableError Nat} {w' : World} (h : Commits env aged t w r w') :
    (w' = w ∧ ∀ row, w.store.getTxnState t = some row → row.status ≠ .active) ∨
    ∃ row row', w.store.getTxnState t = some row ∧ row.status = .active ∧
      (row' = { row with status := .aborted } ∨ row' = { row.withAlloc (w.nextVersion row) with status := .committed }) ∧
      ∀ t', w'.store.getTxnState t' = if t = t' then some row' else w.store.getTxnState t' := by
  have hrefused : ∀ (u : World) (row : TxnStateRecord) (reason : String) t',
      (∀ t', u.store.getTxnState t' = (w.claimed t row).store.getTxnState t') → (u.refused t row reason).store.getTxnState t' =
        if t = t' then some { row with status := .aborted } else w.store.getTxnState t' := by
    intro u row reason t' hu
    rw [txnState_refused, hu, txnState_claimed]
    split <;> rfl
  cases h with
  | unknown hnone => exact .inl ⟨rfl, fun row hrow => by cases hnone.symm.trans hrow⟩
  | settled hrow hst =>
    refine .inl ⟨rfl, fun row' hrow' => ?_⟩
    cases hrow.symm.trans hrow'
    exact hst
  | unstaged hrow hst | dangerous hrow hst =>
    exact .inr ⟨_, _, hrow, hst, .inl rfl, fun t' => hrefused _ _ _ t' fun _ => rfl⟩
  | conflict hrow hst => exact .inr ⟨_, _, hrow, hst, .inl rfl, fun t' => hrefused _ _ _ t' (txnState_bumped _)⟩
  | published hrow hst => exact .inr ⟨_, _, hrow, hst, .inr rfl, txnState_committed w⟩

/-- A commit touches what is staged only to drop the spilled bodies of its own transaction, at last. -/
theorem Commits.staging {r : Except XtableError Nat} {w' : World} (h : Commits env aged t w r w') :
    ∃ u : World, (w' = u ∨ w' = (w.store.iterWriteSet t).foldl (World.dropSpilled t) u) ∧ u.files = w.files ∧
      u.store.stagedBlobs = w.store.stagedBlobs ∧ u.store.writeSet = w.store.writeSet ∧
      (w'.pending = w.pending ∨ w'.pending = w.pending.erase t) := by
  have hrefused : ∀ (u : World) (row : TxnStateRecord) (reason : String),
      (u.refused t row reason).store.stagedBlobs = u.store.stagedBlobs ∧
        (u.refused t row reason).store.writeSet = u.store.writeSet := by
    intro u row reason
    have hpin := unpinned_unregister ((u.store.appendWal (.aborted t reason)).2.putTxnState t
      { row with status := .aborted }) row.snapshotVersion
    have hblobs := congrArg Store.stagedBlobs hpin
    have hwrites := congrArg Store.writeSet hpin
    exact ⟨hblobs, hwrites⟩
  have hbumped : ∀ row : TxnStateRecord, ((w.claimed t row).bumped row).files = w.files ∧
      ((w.claimed t row).bumped row).pending = w.pending := by
    intro row
    unfold World.bumped
    split <;> exact ⟨rfl, rfl⟩
  have hblobs : ∀ row, ((w.claimed t row).bumped row).store.stagedBlobs = w.store.stagedBlobs := fun row =>
    bumped_frame Store.stagedBlobs (fun _ _ => rfl) (w.claimed t row)
  have hwrites : ∀ row, ((w.claimed t row).bumped row).store.writeSet = w.store.writeSet := fun row =>
    bumped_frame Store.writeSet (fun _ _ => rfl) (w.claimed t row)
  cases h with
  | unknown | settled => exact ⟨w, .inl rfl, rfl, rfl, rfl, .inl rfl⟩
  | unstaged | dangerous => exact ⟨_, .inl rfl, rfl, (hrefused (w.claimed t _) ..).1, (hrefused (w.claimed t _) ..).2, .inl rfl⟩
  | conflict =>
    exact ⟨_, .inl rfl, (hbumped _).1, (hrefused ..).1.trans (hblobs _), (hrefused ..).2.trans (hwrites _), .inl (hbumped _).2⟩
  | @published row =>
    have hkeep := uncommitted_published t row (w.store.iterWriteSet t) (w.nextVersion row) ((w.claimed t row).bumped row).store
    have hblobs' := congrArg Store.stagedBlobs hkeep
    have hwrites' := congrArg Store.writeSet hkeep
    exact ⟨_, .inr rfl, (hbumped row).1,
      (indexed_frame Store.stagedBlobs (fun _ => rfl) (fun _ => rfl) _ _ _ _).trans (hblobs'.trans (hblobs row)),
      (indexed_frame Store.writeSet (fun _ => rfl) (fun _ => rfl) _ _ _ _).trans (hwrites'.trans (hwrites row)),
      .inr (by rw [pending_published, (hbumped row).2])⟩

end Frame

/-! ## Calls -/

section Calls

variable {gc : Prop} {w' : World} {c : Call}

theorem Inv.committable (h : Inv gc w fun _ => none) (hrow : w.store.getTxnState t = some row)
    (hst : row.status = .active) : w.Committable row := by
  have hok := h.sound.rows t row hrow
  exact ⟨(hok.active hst).1, hok.nodup, hok.snapshot⟩

theorem Commits.of_inv (env : Env) (aged : String → Bool) (h : Inv gc w fun _ => none) (t : String) :
    Commits env aged t w ((Coordinator.commit (Engine.postCommitHook env) aged t).run World.exec w).1
      ((Coordinator.commit (Engine.postCommitHook env) aged t).run World.exec w).2 :=
  commit_alone env aged w t fun _ hrow hst => h.committable hrow hst

theorem Call.run_commit (env : Env) (aged : String → Bool) (t : String) (w : World) :
    (Call.commit t aged).run env w =
      (((Coordinator.commit (Engine.postCommitHook env) aged t).run World.exec w).1.map Reply.committed,
        ((Coordinator.commit (Engine.postCommitHook env) aged t).run World.exec w).2) :=
  Prog.run_map World.exec _ _ _

/-- What a whole call leaves: the state it found, where it fails, or its effect. -/
inductive CallEffect (env : Env) (w : World) : Call → World → Prop where
  | unchanged {c : Call} : CallEffect env w c w
  | begin {t : String} {idem : Option String} {now : Int} (hrow : w.store.getTxnState t = none)
      (hlocks : w.locks.byTxn[t]? = none) : CallEffect env w (.begin t idem now) (w.begun t idem now)
  | stage {t key : String} {body : Bytes} {contentType : Option String} {userMeta : List (String × String)}
      {deleted : Bool} {row : TxnStateRecord} (hrow : w.store.getTxnState t = some row) (hst : row.status = .active) :
      CallEffect env w (.stage t key body contentType userMeta deleted)
        (w.staged env t key body contentType userMeta deleted row)
  | read {t key : String} {version : Nat} {etag : String} {row : TxnStateRecord}
      (hrow : w.store.getTxnState t = some row) (hst : row.status = .active) :
      CallEffect env w (.read t key version etag) (w.noteRead t key version etag row)
  | heartbeat {t : String} {now : Int} {row : TxnStateRecord} (hrow : w.store.getTxnState t = some row)
      (hst : row.status = .active) : CallEffect env w (.heartbeat t now)
        { w with store := w.store.putTxnState t { row with lastHeartbeatMs := now } }
  | commit {t : String} {aged : String → Bool} {r : Except XtableError Nat} {w' : World}
      (h : Commits env aged t w r w') : CallEffect env w (.commit t aged) w'
  | abort {t : String} {row : TxnStateRecord} (hrow : w.store.getTxnState t = some row) (hst : row.status = .active) :
      CallEffect env w (.abort t) ((w.discarded t row "explicit abort").forget t)
  | sweepStale {now timeout : Int} : CallEffect env w (.sweepStale now timeout) (w.sweptStale now timeout)
  | sweep {now timeout : Int} : CallEffect env w (.sweep now timeout) (w.sweptStale now timeout).collected

theorem Call.run_snd {α : Type} {p : Server α} {g : α → Reply} :
    ((p >>= fun a => pure (g a)).run World.exec w).2 = (p.run World.exec w).2 := by
  rw [Prog.run_map]

theorem CallEffect.of_step (h : Inv gc w fun _ => none) (hstep : c.step env w = some w') : CallEffect env w c w' := by
  unfold Call.step at hstep
  split at hstep
  case isFalse => cases hstep
  case isTrue hadm =>
    cases hstep
    cases c with
    | begin t idem now =>
      obtain ⟨hrow, hlocks, -⟩ := (Call.admits_iff.1 hadm).2 t rfl
      have hrun : ((Call.begin t idem now).run env w).2 = w.begun t idem now :=
        Call.run_snd.trans (by rw [begin_alone idem now hlocks])
      exact hrun ▸ .begin hrow hlocks
    | stage t key body contentType userMeta deleted =>
      have hsnd : ((Call.stage t key body contentType userMeta deleted).run env w).2 = _ := Call.run_snd
      rw [hsnd]
      rcases stage_alone env w t key body contentType userMeta deleted with ⟨x, hx⟩ | ⟨row, hrow, hst, hx⟩ <;> rw [hx]
      · exact .unchanged
      · exact .stage hrow hst
    | read t key version etag =>
      have hsnd : ((Call.read t key version etag).run env w).2 = _ := Call.run_snd
      rw [hsnd]
      rcases read_alone w t key version etag with ⟨x, hx⟩ | ⟨row, hrow, hst, hx⟩ <;> rw [hx]
      · exact .unchanged
      · exact .read hrow hst
    | heartbeat t now =>
      have hsnd : ((Call.heartbeat t now).run env w).2 = _ := Call.run_snd
      rw [hsnd]
      rcases heartbeat_alone w t now with ⟨x, hx⟩ | ⟨row, hrow, hst, hx⟩ <;> rw [hx]
      · exact .unchanged
      · exact .heartbeat hrow hst
    | commit t aged =>
      rw [Call.run_commit]
      exact .commit (.of_inv env aged h t)
    | abort t =>
      have hsnd : ((Call.abort t).run env w).2 = _ := Call.run_snd
      rw [hsnd]
      rcases abort_alone w t with ⟨-, x, hx⟩ | ⟨row, hrow, hst, hx⟩ <;> rw [hx]
      · exact .unchanged
      · exact .abort hrow hst
    | sweepStale now timeout =>
      obtain ⟨n, hn⟩ := sweepStale_alone w now timeout
      have hsnd : ((Call.sweepStale now timeout).run env w).2 = w.sweptStale now timeout :=
        Call.run_snd.trans (by rw [hn])
      exact hsnd ▸ .sweepStale
    | sweep now timeout =>
      obtain ⟨r, hr⟩ := sweep_alone w now timeout
      have hsnd : ((Call.sweep now timeout).run env w).2 = (w.sweptStale now timeout).collected :=
        Call.run_snd.trans (by rw [hr])
      exact hsnd ▸ .sweep

theorem Inv.call_step (h : Inv True w fun _ => none) (hstep : c.step env w = some w') : Inv True w' fun _ => none := by
  have hop : (Op.call c).step env w = some w' := hstep
  exact h.step (fun _ => trivial) hop

end Calls

end Xtable
