import Xtable.Tx.Coordinator
import Xtable.Schema.Key

/-! The structured layer. Structured writes stage an object and note it in the pending map; the post-commit hook
    turns the noted writes of a committed transaction into index rows. -/

namespace Xtable

namespace Engine

open Prog (fail forEach)
open Server
open Coordinator (CommitEvent CommitWrite)

def ofExcept {α : Type} : Except XtableError α → Server α
  | .ok a => return a
  | .error x => fail x

/-! ## The post-commit hook -/

/-- The memtable-shaped key of a schema document. -/
def schemaRecordKeyParts (backendKey : String) : Option RecordKey := do
  let stripped ← backendKey.toList.dropPrefix? "_xtable/".toList
  let (space, afterSpace) ← splitOnce '/' stripped
  let (second, rest) ← splitOnce '/' afterSpace
  if String.ofList second = "_schema" then some (String.ofList space, "_schema", String.ofList rest)
  else none

def pickRecordVersion (writes : List CommitWrite) (key : String) (fallback : Nat) : Nat :=
  ((writes.find? fun w => w.key = key).map (·.commitVersion)).getD fallback

/-- Index one version of a record; the chunk pointer is held by the backend key until a flush. -/
def indexRecord (env : Env) (ev : CommitEvent) (rk : RecordKey) (backendKey : String) (deleted : Bool)
    (schemaVersion : Nat) (body : Value) : Server Unit :=
  putRecordIndexWithBody rk
    ⟨pickRecordVersion ev.writes backendKey 0, deleted, backendKey, schemaVersion, ev.txnId⟩
    (env.jsonText body) (utf8 (env.jsonText body))

def indexSchema (env : Env) (ev : CommitEvent) (s : PendingSchema) : Server Unit := do
  putSchemaIndex s.space s.name ⟨s.version, s.backendKey⟩
  match schemaRecordKeyParts s.backendKey with
  | some rk => indexRecord env ev rk s.backendKey false s.version s.body
  | none => pure ()

def postCommitHook (env : Env) (ev : CommitEvent) : Server Unit := do
  let taken ← pendingTake ev.txnId
  forEach taken.records fun r =>
    indexRecord env ev (r.space, r.table, r.recordId) r.backendKey r.deleted r.schemaVersion r.body
  forEach taken.schemas fun s => indexSchema env ev s

/-! ## Transactions -/

def commitTxn (env : Env) (aged : String → Bool) (t : String) : Server Nat := do
  let version ← Coordinator.commit (postCommitHook env) aged t
  let _ ← pendingTake t
  return version

def abortTxn (t : String) : Server Unit := do
  let r ← (Coordinator.abort t).attempt
  let _ ← pendingTake t
  ofExcept r

/-! ## Readers -/

/-- Pin the current version for a `StructuredReader`. -/
def acquireSnapshot : Server Nat := captureAndRegisterSnapshot

/-- `StructuredReader::drop`. -/
def dropReader (snapshotVersion : Nat) : Server Unit := unregisterSnapshot snapshotVersion

/-! ## Writes -/

/-- Versions are `u32`s, and wrap in a release build. -/
def nextSchemaVersion (t space name : String) : Server Nat := do
  match ← latestSchemaVersionInTxn t space name with
  | some version => return (version + 1) % 2 ^ 32
  | none =>
    match ← getSchemaIndex space name with
    | some idx => return (idx.latestVersion + 1) % 2 ^ 32
    | none => return 1

/-- Stage a schema document under the next version of its name. -/
def stageSchema (env : Env) (t space name : String) (body : Value) : Server Nat := do
  let next ← nextSchemaVersion t space name
  let key ← ofExcept (schemaKey space name next)
  Coordinator.stage env t key (utf8 (env.jsonText body)) (some "application/schema+json") [] false
  pendingSchema t ⟨space, name, next, body, key⟩
  return next

def registerSchema (env : Env) (t space name : String) (body : Value) : Server Nat :=
  if body.isObject then stageSchema env t space name body
  else fail (.invalidArgument "schema body must be a JSON object")

def bindTableSchema (env : Env) (t space table : String) (body : Value) : Server Unit :=
  if body.isObject then do
    let _ ← stageSchema env t space ("_table::" ++ table) body
  else fail (.invalidArgument "table schema body must be a JSON object")

/-- The object metadata of a record. -/
def recordMeta (space table recordId : String) (schemaVersion : Option Nat) : List (String × String) :=
  [("x-xtable-kind", "record"), ("x-xtable-space", space), ("x-xtable-table", table),
    ("x-xtable-record", recordId)] ++
  (schemaVersion.map fun sv => ("x-xtable-schema-version", toString sv)).toList

/-- `upsert_record` from the point where the body has passed the schema check of its table (of
version `schemaVersion`, if the table has one). -/
def upsertRecord (env : Env) (t space table recordId : String) (schemaVersion : Option Nat) (body : Value) :
    Server String := do
  let backendKey ← ofExcept (recordKey space table recordId)
  Coordinator.stage env t backendKey (utf8 (env.jsonText body)) (some "application/json")
    (recordMeta space table recordId schemaVersion) false
  pendingRecord t ⟨space, table, recordId, schemaVersion.getD 0, body, false, backendKey⟩
  return backendKey

def deleteRecord (env : Env) (t space table recordId : String) : Server Unit := do
  match ← getRecordIndex (space, table, recordId) with
  | none => fail (.notFound ("record " ++ recordId))
  | some cur => do
    let backendKey ← ofExcept (recordKey space table recordId)
    Coordinator.stage env t backendKey [] (some "application/json") [] true
    pendingRecord t ⟨space, table, recordId, cur.schemaVersion, .null, true, backendKey⟩

end Engine

end Xtable
