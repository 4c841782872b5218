import Xtable.Theorems.Alone

/-! A structured write stages an object and notes it in the pending map, or fails and changes nothing; a structured
    commit or abort is the coordinator's, and drops what is pending. -/

namespace Xtable

open Prog Coordinator

variable {env : Env} {w w' : World} {t : String}

def World.pendRecord (t : String) (r : PendingRecord) (w : World) : World :=
  { w with pending := w.pending.insert t ((w.pendingOf t).addRecord r) }

def World.pendSchema (t : String) (p : PendingSchema) (w : World) : World :=
  { w with pending := w.pending.insert t ((w.pendingOf t).addSchema p) }

def World.unpend (t : String) (w : World) : World := { w with pending := w.pending.erase t }

theorem discard_run_snd {α : Type} (p : Server α) (w : World) :
    (p.discard.run World.exec w).2 = (p.run World.exec w).2 := by
  have hmap := run_map World.exec p (fun _ => ()) w
  exact congrArg Prod.snd hmap

theorem ofExcept_run_ok {α : Type} {x : Except XtableError α} {a : α} (h : x = .ok a) :
    (Engine.ofExcept x).run World.exec w = (.ok a, w) := by
  subst h
  rfl

theorem ofExcept_run_error {α : Type} {x : Except XtableError α} {e : XtableError} (h : x = .error e) :
    (Engine.ofExcept x).run World.exec w = (.error e, w) := by
  subst h
  rfl

/-- The version that a schema gets that is staged next under a name. -/
def World.nextSchemaVersion (w : World) (t space name : String) : Nat :=
  match ((w.pendingOf t).schemas.reverse.find? fun s => s.space = space && s.name = name).map (·.version) with
  | some version => (version + 1) % 2 ^ 32
  | none =>
    match w.store.getSchemaIndex space name with
    | some idx => (idx.latestVersion + 1) % 2 ^ 32
    | none => 1

theorem nextSchemaVersion_run (w : World) (t space name : String) :
    (Engine.nextSchemaVersion t space name).run World.exec w = (.ok (w.nextSchemaVersion t space name), w) := by
  have hpend : w.exec (.latestSchemaVersionInTxn t space name) =
      (((w.pendingOf t).schemas.reverse.find? fun s => s.space = space && s.name = name).map (·.version), w) := rfl
  have hindex : w.exec (.getSchemaIndex space name) = (w.store.getSchemaIndex space name, w) := rfl
  unfold Engine.nextSchemaVersion World.nextSchemaVersion
  simp only [Prog.perform, bind_eq, act_bind, ret_bind, run_act, hpend]
  cases ((w.pendingOf t).schemas.reverse.find? fun s => s.space = space && s.name = name).map (·.version) with
  | some version => rfl
  | none =>
    simp only [run_act, hindex]
    cases w.store.getSchemaIndex space name <;> rfl

/-- What a whole request leaves. -/
inductive RequestEffect (env : Env) (w : World) : Request → World → Prop where
  | unchanged {r : Request} : RequestEffect env w r w
  | call {c : Call} {w' : World} (h : CallEffect env w c w') : RequestEffect env w (.call c) w'
  | schema {r : Request} {t space name key : String} {body : Value} {row : TxnStateRecord}
      (hreq : r = .registerSchema t space name body ∨ ∃ table, name = "_table::" ++ table ∧ r = .bindTableSchema t space table body)
      (hkey : schemaKey space name (w.nextSchemaVersion t space name) = .ok key) (hrow : w.store.getTxnState t = some row) (hst : row.status = .active) :
      RequestEffect env w r
        ((w.staged env t key (utf8 (env.jsonText body)) (some "application/schema+json") [] false row).pendSchema t
          ⟨space, name, w.nextSchemaVersion t space name, body, key⟩)
  | upsert {t space table recordId key : String} {schemaVersion : Option Nat} {body : Value} {row : TxnStateRecord}
      (hkey : recordKey space table recordId = .ok key) (hrow : w.store.getTxnState t = some row)
      (hst : row.status = .active) :
      RequestEffect env w (.upsertRecord t space table recordId schemaVersion body)
        ((w.staged env t key (utf8 (env.jsonText body)) (some "application/json")
          (Engine.recordMeta space table recordId schemaVersion) false row).pendRecord t
          ⟨space, table, recordId, schemaVersion.getD 0, body, false, key⟩)
  | delete {t space table recordId key : String} {cur : RecordIndexEntry} {row : TxnStateRecord}
      (hcur : w.store.getRecordIndex (space, table, recordId) = some cur)
      (hkey : recordKey space table recordId = .ok key) (hrow : w.store.getTxnState t = some row)
      (hst : row.status = .active) :
      RequestEffect env w (.deleteRecord t space table recordId)
        ((w.staged env t key [] (some "application/json") [] true row).pendRecord t
          ⟨space, table, recordId, cur.schemaVersion, .null, true, key⟩)
  | commitFails {t : String} {aged : String → Bool} {x : XtableError} {w' : World}
      (h : Commits env aged t w (.error x) w') : RequestEffect env w (.commitTxn t aged) w'
  | commit {t : String} {aged : String → Bool} {v : Nat} {w' : World} (h : Commits env aged t w (.ok v) w') :
      RequestEffect env w (.commitTxn t aged) (w'.unpend t)
  | abort {t : String} {row : TxnStateRecord} (hrow : w.store.getTxnState t = some row) (hst : row.status = .active) :
      RequestEffect env w (.abortTxn t) (((w.discarded t row "explicit abort").forget t).unpend t)
  | abortFails {t : String} (hinactive : ∀ row, w.store.getTxnState t = some row → row.status ≠ .active) :
      RequestEffect env w (.abortTxn t) (w.unpend t)

theorem abortTxn_run (w : World) (t : String) :
    ((Engine.abortTxn t).run World.exec w).2 = ((abort t).run World.exec w).2.unpend t := by
  have hattempt := run_attempt World.exec (abort t) w
  unfold Engine.abortTxn
  rw [bind_eq, run_bind_ok World.exec hattempt]
  simp only [Prog.perform, bind_eq, act_bind, ret_bind, run_act]
  cases ((abort t).run World.exec w).1 <;> rfl

theorem commitTxn_run (env : Env) (aged : String → Bool) (w : World) (t : String) :
    ((Engine.commitTxn env aged t).run World.exec w).2 =
      match (commit (Engine.postCommitHook env) aged t).run World.exec w with
      | (.ok _, w') => w'.unpend t
      | (.error _, w') => w' := by
  unfold Engine.commitTxn
  rw [bind_eq, run_bind]
  generalize (commit (Engine.postCommitHook env) aged t).run World.exec w = r
  obtain ⟨_ | v, w'⟩ := r <;> rfl

theorem stageSchema_ok {t space name key : String} {row : TxnStateRecord} {w : World} (env : Env) (body : Value)
    (hkey : schemaKey space name (w.nextSchemaVersion t space name) = .ok key) (hrow : w.store.getTxnState t = some row)
    (hst : row.status = .active) : (Engine.stageSchema env t space name body).run World.exec w =
      (.ok (w.nextSchemaVersion t space name),
        (w.staged env t key (utf8 (env.jsonText body)) (some "application/schema+json") [] false row).pendSchema t
          ⟨space, name, w.nextSchemaVersion t space name, body, key⟩) := by
  unfold Engine.stageSchema
  rw [bind_eq, run_bind_ok World.exec (nextSchemaVersion_run w t space name), bind_eq,
    run_bind_ok World.exec (ofExcept_run_ok hkey)]
  exact run_bind_ok World.exec (stage_run env key _ _ _ _ hrow hst)

theorem stageSchema_run (env : Env) (w : World) (t space name : String) (body : Value) :
    (∃ x, (Engine.stageSchema env t space name body).run World.exec w = (.error x, w)) ∨
    ∃ key row, schemaKey space name (w.nextSchemaVersion t space name) = .ok key ∧
      w.store.getTxnState t = some row ∧ row.status = .active ∧
      (Engine.stageSchema env t space name body).run World.exec w =
        (.ok (w.nextSchemaVersion t space name),
          (w.staged env t key (utf8 (env.jsonText body)) (some "application/schema+json") [] false row).pendSchema t
            ⟨space, name, w.nextSchemaVersion t space name, body, key⟩) := by
  unfold Engine.stageSchema
  rw [bind_eq, run_bind_ok World.exec (nextSchemaVersion_run w t space name)]
  cases hkey : schemaKey space name (w.nextSchemaVersion t space name) with
  | error x => exact .inl ⟨x, run_bind_error World.exec (ofExcept_run_error rfl)⟩
  | ok key =>
    rw [bind_eq, run_bind_ok World.exec (ofExcept_run_ok rfl)]
    rcases stage_alone env w t key (utf8 (env.jsonText body)) (some "application/schema+json") [] false with
      ⟨x, hx⟩ | ⟨row, hrow, hst, hx⟩
    · exact .inl ⟨x, run_bind_error World.exec hx⟩
    · exact .inr ⟨key, row, rfl, hrow, hst, run_bind_ok World.exec hx⟩

theorem upsertRecord_run (env : Env) (w : World) (t space table recordId : String) (schemaVersion : Option Nat)
    (body : Value) :
    (∃ x, (Engine.upsertRecord env t space table recordId schemaVersion body).run World.exec w = (.error x, w)) ∨
    ∃ key row, recordKey space table recordId = .ok key ∧ w.store.getTxnState t = some row ∧ row.status = .active ∧
      (Engine.upsertRecord env t space table recordId schemaVersion body).run World.exec w =
        (.ok key, (w.staged env t key (utf8 (env.jsonText body)) (some "application/json")
          (Engine.recordMeta space table recordId schemaVersion) false row).pendRecord t
          ⟨space, table, recordId, schemaVersion.getD 0, body, false, key⟩) := by
  unfold Engine.upsertRecord
  cases hkey : recordKey space table recordId with
  | error x => exact .inl ⟨x, run_bind_error World.exec (ofExcept_run_error rfl)⟩
  | ok key =>
    rw [bind_eq, run_bind_ok World.exec (ofExcept_run_ok rfl)]
    rcases stage_alone env w t key (utf8 (env.jsonText body)) (some "application/json")
      (Engine.recordMeta space table recordId schemaVersion) false with ⟨x, hx⟩ | ⟨row, hrow, hst, hx⟩
    · exact .inl ⟨x, run_bind_error World.exec hx⟩
    · exact .inr ⟨key, row, rfl, hrow, hst, run_bind_ok World.exec hx⟩

theorem deleteRecord_run (env : Env) (w : World) (t space table recordId : String) :
    (∃ x, (Engine.deleteRecord env t space table recordId).run World.exec w = (.error x, w)) ∨
    ∃ key cur row, w.store.getRecordIndex (space, table, recordId) = some cur ∧
      recordKey space table recordId = .ok key ∧ w.store.getTxnState t = some row ∧ row.status = .active ∧
      (Engine.deleteRecord env t space table recordId).run World.exec w =
        (.ok (), (w.staged env t key [] (some "application/json") [] true row).pendRecord t
          ⟨space, table, recordId, cur.schemaVersion, .null, true, key⟩) := by
  have hlook : w.exec (.getRecordIndex (space, table, recordId)) = (w.store.getRecordIndex (space, table, recordId), w) := rfl
  simp only [Engine.deleteRecord, Prog.perform, bind_eq, act_bind, ret_bind, run_act, hlook]
  cases hcur : w.store.getRecordIndex (space, table, recordId) with
  | none => exact .inl ⟨_, rfl⟩
  | some cur =>
    cases hkey : recordKey space table recordId with
    | error x => exact .inl ⟨x, run_bind_error World.exec (ofExcept_run_error rfl)⟩
    | ok key =>
      simp only [run_bind_ok World.exec (ofExcept_run_ok rfl)]
      rcases stage_alone env w t key [] (some "application/json") [] true with ⟨x, hx⟩ | ⟨row, hrow, hst, hx⟩
      · exact .inl ⟨x, run_bind_error World.exec hx⟩
      · exact .inr ⟨key, cur, row, rfl, rfl, hrow, hst, run_bind_ok World.exec hx⟩

theorem Inv.of_parts {gc : Prop} (h : Inv gc w fun _ => none) (hstore : w'.store = w.store) (hlocks : w'.locks = w.locks) :
    Inv gc w' fun _ => none :=
  h.of_eq (hstore ▸ h.wal) (by rw [hstore]) hlocks

theorem Call.step_stage {row : TxnStateRecord} (env : Env) (key : String) (body : Bytes) (contentType : Option String)
    (userMeta : List (String × String)) (deleted : Bool) (hrow : w.store.getTxnState t = some row)
    (hst : row.status = .active) : (Call.stage t key body contentType userMeta deleted).step env w =
      some (w.staged env t key body contentType userMeta deleted row) := by
  have hsnd : ((Call.stage t key body contentType userMeta deleted).run env w).2 = _ := Call.run_snd
  rw [stage_run env key body contentType userMeta deleted hrow hst] at hsnd
  exact (if_pos rfl).trans (congrArg some hsnd)

theorem Inv.staged {row : TxnStateRecord} (h : Inv True w fun _ => none) (env : Env) (key : String) (body : Bytes) (contentType : Option String)
    (userMeta : List (String × String)) (deleted : Bool) (hrow : w.store.getTxnState t = some row)
    (hst : row.status = .active) :
    Inv True (w.staged env t key body contentType userMeta deleted row) fun _ => none :=
  h.call_step (Call.step_stage env key body contentType userMeta deleted hrow hst)

theorem RequestEffect.of_step {r : Request} (h : Inv True w fun _ => none) (hstep : r.step env w = some w') :
    RequestEffect env w r w' ∧ Inv True w' fun _ => none := by
  unfold Request.step at hstep
  split at hstep
  case isFalse => cases hstep
  case isTrue hadm =>
    cases hstep
    cases r with
    | call c =>
      have hcall : c.step env w = some (c.run env w).2 := if_pos hadm
      simp only [Request.body, discard_run_snd]
      exact ⟨.call (.of_step h hcall), h.call_step hcall⟩
    | registerSchema t space name body =>
      simp only [Request.body, discard_run_snd, Engine.registerSchema]
      split
      · rcases stageSchema_run env w t space name body with ⟨x, hx⟩ | ⟨key, row, hkey, hrow, hst, hx⟩ <;> rw [hx]
        · exact ⟨.unchanged, h⟩
        · exact ⟨.schema (.inl rfl) hkey hrow hst, (h.staged env _ _ _ _ _ hrow hst).of_parts rfl rfl⟩
      · exact ⟨.unchanged, h⟩
    | bindTableSchema t space table body =>
      simp only [Request.body, Engine.bindTableSchema]
      split
      · have hsnd : ∀ p : Server Nat, ((p >>= fun _ => pure ()).run World.exec w).2 = (p.run World.exec w).2 :=
          fun p => congrArg Prod.snd (run_map World.exec p (fun _ => ()) w)
        rw [hsnd]
        rcases stageSchema_run env w t space ("_table::" ++ table) body with
          ⟨x, hx⟩ | ⟨key, row, hkey, hrow, hst, hx⟩ <;> rw [hx]
        · exact ⟨.unchanged, h⟩
        · exact ⟨.schema (.inr ⟨table, rfl, rfl⟩) hkey hrow hst, (h.staged env _ _ _ _ _ hrow hst).of_parts rfl rfl⟩
      · exact ⟨.unchanged, h⟩
    | upsertRecord t space table recordId schemaVersion body =>
      simp only [Request.body, discard_run_snd]
      rcases upsertRecord_run env w t space table recordId schemaVersion body with
        ⟨x, hx⟩ | ⟨key, row, hkey, hrow, hst, hx⟩ <;> rw [hx]
      · exact ⟨.unchanged, h⟩
      · exact ⟨.upsert hkey hrow hst, (h.staged env _ _ _ _ _ hrow hst).of_parts rfl rfl⟩
    | deleteRecord t space table recordId =>
      simp only [Request.body]
      rcases deleteRecord_run env w t space table recordId with
        ⟨x, hx⟩ | ⟨key, cur, row, hcur, hkey, hrow, hst, hx⟩ <;> rw [hx]
      · exact ⟨.unchanged, h⟩
      · exact ⟨.delete hcur hkey hrow hst, (h.staged env _ _ _ _ _ hrow hst).of_parts rfl rfl⟩
    | commitTxn t aged =>
      have hcall : (Call.commit t aged).step env w = some ((Call.commit t aged).run env w).2 := if_pos rfl
      have hinv := h.call_step hcall
      have hends := Commits.of_inv env aged h t
      rw [Call.run_commit] at hinv
      simp only [Request.body, discard_run_snd]
      rw [commitTxn_run]
      revert hinv hends
      generalize (Coordinator.commit (Engine.postCommitHook env) aged t).run World.exec w = r
      obtain ⟨_ | v, w'⟩ := r <;> intro hinv hends
      · exact ⟨.commitFails hends, hinv⟩
      · exact ⟨.commit hends, hinv.of_parts rfl rfl⟩
    | abortTxn t =>
      have hcall : (Call.abort t).step env w = some ((Call.abort t).run env w).2 := if_pos rfl
      have hsnd : ((Call.abort t).run env w).2 = _ := Call.run_snd
      have hinv := h.call_step hcall
      rw [hsnd] at hinv
      simp only [Request.body]
      rw [abortTxn_run]
      refine ⟨?_, hinv.of_parts rfl rfl⟩
      rcases abort_alone w t with ⟨hinactive, x, hx⟩ | ⟨row, hrow, hst, hx⟩ <;> rw [hx]
      · exact .abortFails hinactive
      · exact .abort hrow hst

end Xtable
