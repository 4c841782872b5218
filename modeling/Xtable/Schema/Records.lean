import Xtable.Schema.Query
import Xtable.Schema.Space

/-! `get_record` goes through the memtables and chunks, `query_records` through the record rows. Both also answer
    the keys and versions of the reads they record for their transaction. -/

namespace Xtable

namespace Space

/-- The reads that an operation records, as keys and versions. -/
abbrev Reads : Type := List (String × Nat)

def parseRecord (e : SpaceEnv) (raw : Bytes) : Except Fault Value :=
  match e.fromSlice raw with
  | .ok v => .ok v
  | .error x => .error (.error (.serde ("record body parse: " ++ x)))

/-- `get_record` of a transaction at `txnSnapshot`. -/
def getRecord (e : SpaceEnv) (w : World) (txnSnapshot : Nat) (space table recordId : String) (snapshot : Option Nat) :
    Except Fault (Option Record) × Reads :=
  let snap := snapshot.getD txnSnapshot
  match Read.readAtSnapshot e.codecs w.mems w.store ⟨w.bucket, e.etag, e.notFound⟩ (space, table, recordId) snap with
  | .error x => (.error x, [])
  | .ok none => (.ok none, [])
  | .ok (some r) =>
    if r.deleted then (.ok none, [])
    else match recordKey space table recordId with
      | .error x => (.error (.error x), [])
      | .ok key =>
        ((parseRecord e r.body).map fun body => some ⟨space, table, recordId, body, r.schemaVersion, r.commitVersion, false⟩,
          [(key, r.commitVersion)])

/-- One row of `store_iter_with_body`. -/
def rowWithBody (e : SpaceEnv) (store : Store) (space table : String) (snapshot : Nat) (row : String × RecordIndexEntry) :
    Except Fault (Option (String × RecordIndexEntry × Value)) :=
  match store.getRecordVersionAtSnapshot (space, table, row.1) snapshot with
  | some (historical, raw) => do
    let body ← if raw = [] then .ok .null else parseRecord e raw
    return some (row.1, historical, body)
  | none =>
    -- rows from before the historical index existed
    if snapshot < row.2.commitVersion then .ok none
    else do
      let stored ← recordIndexWithBody e store (space, table, row.1)
      return some (row.1, row.2, (stored.map (·.2)).getD .null)

def storeIterWithBody (e : SpaceEnv) (store : Store) (space table : String) (snapshot : Nat) :
    Except Fault (List (String × RecordIndexEntry × Value)) := do
  let rows ← (store.iterRecordIndex space table).mapM (rowWithBody e store space table snapshot)
  return rows.filterMap id

/-- The records of the rows, and the reads of them. -/
def queriedRecords (space table : String) (query : Query) :
    List (String × RecordIndexEntry × Value) → Except Fault (List Record) × Reads
  | [] => (.ok [], [])
  | (rid, idx, body) :: rows =>
    match recordKey space table rid with
    | .error x => (.error (.error x), [])
    | .ok key =>
      let rest := queriedRecords space table query rows
      let record : List Record :=
        if idx.deleted then
          if query.includeDeleted then [⟨space, table, rid, .null, idx.schemaVersion, idx.commitVersion, true⟩] else []
        else [⟨space, table, rid, body, idx.schemaVersion, idx.commitVersion, false⟩]
      (rest.1.map (record ++ ·), (key, idx.commitVersion) :: rest.2)

/-- `query_records` of a transaction at `txnSnapshot`. -/
def queryRecords (e : SpaceEnv) (w : World) (txnSnapshot : Nat) (space table : String) (query : Query)
    (snapshot : Option Nat) : Except Fault QueryResult × Reads :=
  let snap := snapshot.getD txnSnapshot
  match storeIterWithBody e w.store space table snap with
  | .error x => (.error x, [])
  | .ok rows =>
    let out := queriedRecords space table query rows
    (out.1.bind fun records => match query.run e.sortBy records with
      | none => .error .panic
      | some page => .ok ⟨snap, page, records.length⟩, out.2)

/-! ## Differences -/

/-- `Option<Value>::eq`. -/
def sameValue : Option Value → Option Value → Bool
  | none, none => true
  | some a, some b => a.same b
  | _, _ => false

/-- The values of a record at the two snapshots. -/
abbrev Sides : Type := Option Value × Option Value

/-- The value of a record, unless it is deleted. -/
def recordValue (r : Record) : Option Value := if r.deleted then none else some r.body

/-- Note the records of one snapshot, on the first side or on the second. -/
def noteRecords (first : Bool) (byId : Table String Sides) (records : List Record) : Table String Sides :=
  records.foldl (fun byId r =>
    let entry := (byId[r.recordId]?).getD (none, none)
    byId.insert r.recordId (if first then (recordValue r, entry.2) else (entry.1, recordValue r))) byId

/-- The records of a table at a snapshot, the deleted ones too, for nobody's transaction. -/
def recordsAt (e : SpaceEnv) (w : World) (space table : String) (snapshot : Nat) : Except Fault QueryResult :=
  (queryRecords e w (2 ^ 64 - 1) space table { includeDeleted := true } (some snapshot)).1

def diff (e : SpaceEnv) (w : World) (space table : String) (s1 s2 : Nat) :
    Except Fault (List (String × Sides)) := do
  let byId ← [s1, s2].foldlM (fun byId snap => do
    let res ← recordsAt e w space table snap
    return noteRecords (snap = s1) byId res.records) ∅
  return byId.toList.filter fun x => !sameValue x.2.1 x.2.2

end Space

end Xtable
