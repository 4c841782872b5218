import Xtable.Schema.Query
import Xtable.Storage.Read
import Xtable.Tx.Operations

/-! The operations of `StructuredSpace` that look documents up: schemas at a snapshot, and the upsert of a record
    with the schema check of its table. -/

namespace Xtable

/-- What the structured space takes from elsewhere besides: the chunk codecs, the ETags and error texts of the bucket,
`serde_json::from_slice`, the texts of floats, `regex`, and `slice::sort_by`. -/
structure SpaceEnv extends Env where
  codecs : Codecs
  etag : String → String
  notFound : String → String
  fromSlice : Bytes → Except String Value
  f64Text : Number → String
  regex : String → Except String (String → Bool)
  sortBy : SortBy

def SpaceEnv.validator (e : SpaceEnv) : Validator := ⟨e.jsonText, e.f64Text, e.regex⟩

/-- The schema of strings. -/
def Value.stringSchema : Value := .object [("type", .string "string")]

/-- A small environment to evaluate runs in: it knows the texts of one schema and of one string. -/
def SpaceEnv.sample : SpaceEnv where
  spillDir := "/spill"
  sha256 := Env.sample.sha256
  jsonText v := match v with
    | .object _ => "\x7b\"type\":\"string\"\x7d"
    | .string _ => "\"a\""
    | _ => "null"
  codecs := ⟨.ok, .ok, fun _ => .error "", fun _ => .error "", fun _ => 0, fun _ => 0, fun _ => "", fun _ => true⟩
  etag := id
  notFound := id
  fromSlice text :=
    if text = utf8 "\x7b\"type\":\"string\"\x7d" then .ok .stringSchema
    else if text = utf8 "\"a\"" then .ok (.string "a")
    else .ok .null
  f64Text _ := ""
  regex _ := .error ""
  sortBy := .insertion

structure SchemaInfo where
  space : String
  name : String
  version : Nat
  body : Value

structure RecordWrite where
  space : String
  table : String
  recordId : Option String
  body : Value

structure WriteOutcome where
  recordId : String
  schemaVersion : Nat
  backendKey : String

namespace Space

/-! ## Schema versions -/

/-- The version of a schema document of the name, from its record id. -/
def schemaVersionOf (name recordId : String) : Option Nat := do
  let rest ← recordId.toList.dropPrefix? (name ++ "/v").toList
  let text ← rest.dropSuffix? ".json".toList
  parseUnsigned (2 ^ 32) text

/-- A schema document is visible at a snapshot. -/
def schemaVisible (store : Store) (space recordId : String) (latest : RecordIndexEntry) (snapshot : Nat) : Bool :=
  match store.getRecordVersionAtSnapshot (space, "_schema", recordId) snapshot with
  | some (entry, _) => !entry.deleted
  | none => latest.commitVersion ≤ snapshot && !latest.deleted

/-- One row of the scan for the latest schema version. -/
def laterSchema (store : Store) (space name : String) (snapshot : Nat) (best : Option Nat)
    (row : String × RecordIndexEntry) : Option Nat :=
  match schemaVersionOf name row.1 with
  | none => best
  | some version => if schemaVisible store space row.1 row.2 snapshot && best.all (· < version) then some version else best

def latestSchemaVersionAtSnapshot (store : Store) (space name : String) (snapshot : Nat) : Option Nat :=
  (store.iterRecordIndex space "_schema").foldl (laterSchema store space name snapshot) none

/-! ## Schemas -/

/-- The record id of a schema document. -/
def schemaRecordId (name : String) (version : Nat) : String := name ++ "/v" ++ toString version ++ ".json"

def parseBody (e : SpaceEnv) (raw : Bytes) : Except Fault Value :=
  match e.fromSlice raw with
  | .ok v => .ok v
  | .error x => .error (.error (.serde ("schema body parse: " ++ x)))

/-- A schema document through the read path. -/
def readSchema (e : SpaceEnv) (w : World) (space name : String) (version snapshot : Nat) :
    Except Fault (Option ReadResult) :=
  Read.readAtSnapshot e.codecs w.mems w.store ⟨w.bucket, e.etag, e.notFound⟩
    (space, "_schema", schemaRecordId name version) snapshot

/-- `get_schema` of a transaction at `txnSnapshot`. -/
def getSchema (e : SpaceEnv) (w : World) (txnSnapshot : Nat) (space name : String) (version snapshot : Option Nat) :
    Except Fault (Option SchemaInfo) :=
  let snap := snapshot.getD txnSnapshot
  match w.store.getSchemaIndex space name with
  | none => .ok none
  | some idx =>
    let effective := version.getD ((latestSchemaVersionAtSnapshot w.store space name snap).getD 0)
    if effective = 0 ∨ idx.latestVersion < effective then .ok none
    else do
      match ← readSchema e w space name effective snap with
      | none => return none
      | some r => return some ⟨space, name, effective, ← parseBody e r.body⟩

/-- The entry of one name in `list_schemas`, if it has a visible version. -/
def listedSchema (e : SpaceEnv) (w : World) (space name : String) (snapshot : Nat) : Except Fault (Option SchemaInfo) :=
  match latestSchemaVersionAtSnapshot w.store space name snapshot with
  | none => .ok none
  | some version => do
    match ← readSchema e w space name version snapshot with
    | none => return none
    | some r => return some ⟨space, name, version, ← parseBody e r.body⟩

def listSchemas (e : SpaceEnv) (w : World) (txnSnapshot : Nat) (space : String) : Except Fault (List SchemaInfo) := do
  let found ← (w.store.iterSchemaIndex space).mapM fun x => listedSchema e w space x.1 txnSnapshot
  return (found.filterMap id).insertionSort (·.name ≤ ·.name)

/-! ## The schema of a table -/

/-- The last schema of a name that the transaction has staged. -/
def pendingSchema (w : World) (t space name : String) : Option PendingSchema :=
  (w.pendingOf t).schemas.reverse.find? fun s => s.space = space && s.name = name

def resolveTableSchemaVersion (w : World) (t space table : String) (snapshot : Nat) : Option Nat :=
  match pendingSchema w t space ("_table::" ++ table) with
  | some p => some p.version
  | none => latestSchemaVersionAtSnapshot w.store space ("_table::" ++ table) snapshot

/-- `get_record_index_with_body`. -/
def recordIndexWithBody (e : SpaceEnv) (store : Store) (rk : RecordKey) :
    Except Fault (Option (RecordIndexEntry × Value)) :=
  match store.recordIndex[rk]? with
  | none => .ok none
  | some s =>
    if s.bodyJson = "" then .ok (some (s.entry, .null))
    else match e.fromSlice (utf8 s.bodyJson) with
      | .ok body => .ok (some (s.entry, body))
      | .error x => .error (.error (.serde x))

def tableSchemaBody (e : SpaceEnv) (w : World) (t space table : String) (schemaVersion snapshot : Nat) :
    Except Fault (Option Value) :=
  match pendingSchema w t space ("_table::" ++ table) with
  | some p => .ok (some p.body)
  | none =>
    let rk : RecordKey := (space, "_schema", schemaRecordId ("_table::" ++ table) schemaVersion)
    match w.store.getRecordVersionAtSnapshot rk snapshot with
    | some (_, body) => if body = [] then .ok none else (parseBody e body).map some
    | none =>
      match recordIndexWithBody e w.store rk with
      | .ok (some (_, .null)) => .ok none
      | .ok (some (entry, body)) => .ok (if entry.commitVersion ≤ snapshot then some body else none)
      | _ => .ok none

/-- The schema that a body is checked against. -/
def tableSchema (e : SpaceEnv) (w : World) (t space table : String) (schemaVersion snapshot : Nat) :
    Except Fault Value := do
  match ← tableSchemaBody e w t space table schemaVersion snapshot with
  | some body => return body
  | none =>
    match ← readSchema e w space ("_table::" ++ table) schemaVersion snapshot with
    | some r => parseBody e r.body
    | none => throw (.error (.invalidArgument ("schema body not found for " ++ space ++ "/" ++ "_table::" ++ table ++
        " v" ++ toString schemaVersion)))

/-- The schema check of `upsert_record`: the version of the schema the body has passed, if the table has one. -/
def checkSchema (e : SpaceEnv) (w : World) (t : String) (snapshot : Nat) (write : RecordWrite) :
    Except Fault (Option Nat) :=
  match resolveTableSchemaVersion w t write.space write.table snapshot with
  | none => .ok none
  | some sv => do
    let schema ← tableSchema e w t write.space write.table sv snapshot
    match e.validator.validate schema write.body with
    | .ok () => return some sv
    | .error x => throw (.error (.invalidArgument ("validation: " ++ x.display)))

/-- `upsert_record`; `fresh` is the ULID of a record that comes without an id. -/
def upsertRecord (e : SpaceEnv) (t : String) (snapshot : Nat) (write : RecordWrite) (fresh : String) (w : World) :
    Except Fault WriteOutcome × World :=
  match checkSchema e w t snapshot write with
  | .error f => (.error f, w)
  | .ok schemaVersion =>
    let recordId := write.recordId.getD fresh
    match (Engine.upsertRecord e.toEnv t write.space write.table recordId schemaVersion write.body).run World.exec w with
    | (.ok backendKey, w') => (.ok ⟨recordId, schemaVersion.getD 0, backendKey⟩, w')
    | (.error x, w') => (.error (.error x), w')

end Space

/-! ## Operations -/

/-- Operations of the structured space: requests, and upserts with their schema check. -/
inductive SpaceOp where
  | request (r : Request)
  | upsert (t : String) (write : RecordWrite) (fresh : String)

/-- Whole operations, one after the other. A handle has the snapshot that `begin` took. -/
def SpaceOp.step (e : SpaceEnv) : SpaceOp → World → Option World
  | request (.upsertRecord ..), _ => none
  | request r, w => if r.structured then r.step e.toEnv w else none
  | upsert t write fresh, w =>
    match w.store.getTxnState t with
    | none => some w
    | some row => some (Space.upsertRecord e t row.snapshotVersion write fresh w).2

end Xtable
