import Xtable.Lib.Bincode
import Xtable.Schema.Value
import Xtable.Storage.Store

/-! The bytes of the record tables. `TBL_RECORD_INDEX` has rows of two shapes and no tag: an entry with the body of
    the record behind it, and an entry alone. Readers of the entry decode the front of either; readers of the body
    try the longer shape first. `Store` has the rows as values. -/

namespace Xtable

namespace Rows

open Bincode (Blob Text Codec)

structure RecordIndexEntry where
  commitVersion : UInt64
  deleted : Bool
  chunkId : Text
  schemaVersion : UInt32
  txnId : Text
  updatedMs : Int64

structure StoredRecord where
  entry : RecordIndexEntry
  bodyJson : Text

structure StoredRecordVersion where
  entry : RecordIndexEntry
  body : Blob

/-! ## Encodings -/

def RecordIndexEntry.codec : Codec RecordIndexEntry :=
  (Codec.u64.prod (Codec.bool.prod (Codec.text.prod (Codec.u32.prod (Codec.text.prod Codec.i64))))).iso
    (fun x => ⟨x.1, x.2.1, x.2.2.1, x.2.2.2.1, x.2.2.2.2.1, x.2.2.2.2.2⟩)
    (fun e => (e.commitVersion, e.deleted, e.chunkId, e.schemaVersion, e.txnId, e.updatedMs)) fun _ => rfl

def StoredRecord.codec : Codec StoredRecord :=
  (RecordIndexEntry.codec.prod Codec.text).iso (fun x => ⟨x.1, x.2⟩) (fun r => (r.entry, r.bodyJson)) fun _ => rfl

def StoredRecordVersion.codec : Codec StoredRecordVersion :=
  (RecordIndexEntry.codec.prod Codec.blob).iso (fun x => ⟨x.1, x.2⟩) (fun r => (r.entry, r.body)) fun _ => rfl

/-- What the store takes from elsewhere here: `serde_json::to_string` and `from_str`, and the text of an error of bincode. -/
structure Serde where
  toText : Value → Text
  fromStr : String → Except String Value
  display : Bincode.Error → String

/-- `bincode::deserialize(..).map_err(XtableError::from)`. -/
def Serde.decode {α : Type} (j : Serde) (c : Codec α) (raw : Bytes) : Except XtableError α :=
  match c.deserialize raw with
  | .ok a => .ok a
  | .error x => .error (.serde (j.display x))

/-- `serde_json::to_vec`. -/
def Serde.toVec (j : Serde) (body : Value) : Blob := ⟨utf8 (j.toText body).1, (j.toText body).2⟩

def decodeFailed : XtableError := .storage "record index: decode failed"

/-! ## Tables -/

structure RowStore where
  recordIndex : Table RecordKey Bytes := ∅
  recordVersions : Table (RecordKey × Nat) Bytes := ∅

namespace RowStore

variable (j : Serde) (s : RowStore) (rk : RecordKey)

def putRecordIndex (entry : RecordIndexEntry) : RowStore :=
  { s with recordIndex := s.recordIndex.insert rk (RecordIndexEntry.codec.serialize entry) }

def getRecordIndex : Except XtableError (Option RecordIndexEntry) :=
  match s.recordIndex[rk]? with
  | some raw => do return some (← j.decode RecordIndexEntry.codec raw)
  | none => .ok none

/-- The commit version of a row of either shape. -/
def currentVersion (raw : Bytes) : Except XtableError UInt64 :=
  match StoredRecord.codec.deserialize raw with
  | .ok stored => .ok stored.entry.commitVersion
  | .error _ =>
    match RecordIndexEntry.codec.deserialize raw with
    | .ok entry => .ok entry.commitVersion
    | .error _ => .error decodeFailed

def replaceLatest (entry : RecordIndexEntry) : Except XtableError Bool :=
  match s.recordIndex[rk]? with
  | none => .ok true
  | some raw => do return decide ((← currentVersion raw) ≤ entry.commitVersion)

def putRecordVersion (entry : RecordIndexEntry) (body : Blob) : RowStore :=
  { s with
    recordVersions := s.recordVersions.insert (rk, entry.commitVersion.toNat) (StoredRecordVersion.codec.serialize ⟨entry, body⟩) }

def putRecordIndexWithBody (entry : RecordIndexEntry) (body : Value) : Except XtableError RowStore := do
  let replace ← s.replaceLatest rk entry
  let latest := if replace then s.recordIndex.insert rk (StoredRecord.codec.serialize ⟨entry, j.toText body⟩) else s.recordIndex
  return { s with recordIndex := latest }.putRecordVersion rk entry (j.toVec body)

def putRecordVersionsBulk (updates : List (RecordKey × RecordIndexEntry × Blob)) : RowStore :=
  updates.foldl (fun s u => s.putRecordVersion u.1 u.2.1 u.2.2) s

def getRecordIndexWithBody : Except XtableError (Option (RecordIndexEntry × Value)) :=
  match s.recordIndex[rk]? with
  | none => .ok none
  | some raw =>
    match StoredRecord.codec.deserialize raw with
    | .ok stored =>
      if stored.bodyJson.1 = "" then .ok (some (stored.entry, .null))
      else match j.fromStr stored.bodyJson.1 with
        | .ok body => .ok (some (stored.entry, body))
        | .error x => .error (.serde x)
    | .error _ =>
      match RecordIndexEntry.codec.deserialize raw with
      | .ok entry => .ok (some (entry, .null))
      | .error _ => .error decodeFailed

/-- Point the latest row at a chunk, in the shape it has, if it is the version; answers whether it is. -/
def pointLatest (commitVersion : UInt64) (newChunkId : Text) : Except XtableError (Bool × RowStore) :=
  match s.recordIndex[rk]? with
  | none => .ok (false, s)
  | some raw =>
    match StoredRecord.codec.deserialize raw with
    | .ok stored =>
      if stored.entry.commitVersion = commitVersion then
        let row := StoredRecord.codec.serialize { stored with entry := { stored.entry with chunkId := newChunkId } }
        .ok (true, { s with recordIndex := s.recordIndex.insert rk row })
      else .ok (false, s)
    | .error _ =>
      match RecordIndexEntry.codec.deserialize raw with
      | .ok entry =>
        if entry.commitVersion = commitVersion then
          let row := RecordIndexEntry.codec.serialize { entry with chunkId := newChunkId }
          .ok (true, { s with recordIndex := s.recordIndex.insert rk row })
        else .ok (false, s)
      | .error _ => .error decodeFailed

/-- Point the row of the version at a chunk; answers whether there is one. -/
def pointVersion (commitVersion : UInt64) (newChunkId : Text) : Except XtableError (Bool × RowStore) :=
  match s.recordVersions[(rk, commitVersion.toNat)]? with
  | none => .ok (false, s)
  | some raw => do
    let stored ← j.decode StoredRecordVersion.codec raw
    let row := StoredRecordVersion.codec.serialize { stored with entry := { stored.entry with chunkId := newChunkId } }
    return (true, { s with recordVersions := s.recordVersions.insert (rk, commitVersion.toNat) row })

def updateRecordIndexChunkIdForVersion (commitVersion : UInt64) (newChunkId : Text) : Except XtableError (Bool × RowStore) := do
  let latest ← s.pointLatest rk commitVersion newChunkId
  let versions ← latest.2.pointVersion j rk commitVersion newChunkId
  return (latest.1 || versions.1, versions.2)

def deleteRecordIndex : RowStore := { s with recordIndex := s.recordIndex.erase rk }

/-- The rows of versions that `gc_chains` drops, by their keys. -/
def eraseRecordVersions (keys : List (RecordKey × Nat)) : RowStore :=
  keys.foldl (fun s k => { s with recordVersions := s.recordVersions.erase k }) s

def iterRecordIndex (space table : String) : Except XtableError (List (String × RecordIndexEntry)) := do
  let rows := s.recordIndex.toList.filter fun x => x.1.1 = space && x.1.2.1 = table
  let out ← rows.mapM fun x => do return (x.1.2.2, ← j.decode RecordIndexEntry.codec x.2)
  return out.insertionSort fun a b => a.1 ≤ b.1

end RowStore

/-- A transaction on the record tables. -/
inductive RowOp where
  | putRecordIndex (rk : RecordKey) (entry : RecordIndexEntry)
  | putRecordIndexWithBody (rk : RecordKey) (entry : RecordIndexEntry) (body : Value)
  | putRecordVersion (rk : RecordKey) (entry : RecordIndexEntry) (body : Blob)
  | putRecordVersionsBulk (updates : List (RecordKey × RecordIndexEntry × Blob))
  | updateRecordIndexChunkIdForVersion (rk : RecordKey) (commitVersion : UInt64) (newChunkId : Text)
  | deleteRecordIndex (rk : RecordKey)
  | eraseRecordVersions (keys : List (RecordKey × Nat))

def RowOp.run (j : Serde) (s : RowStore) : RowOp → Except XtableError RowStore
  | putRecordIndex rk entry => .ok (s.putRecordIndex rk entry)
  | putRecordIndexWithBody rk entry body => s.putRecordIndexWithBody j rk entry body
  | putRecordVersion rk entry body => .ok (s.putRecordVersion rk entry body)
  | putRecordVersionsBulk updates => .ok (s.putRecordVersionsBulk updates)
  | updateRecordIndexChunkIdForVersion rk commitVersion newChunkId =>
    (s.updateRecordIndexChunkIdForVersion j rk commitVersion newChunkId).map Prod.snd
  | deleteRecordIndex rk => .ok (s.deleteRecordIndex rk)
  | eraseRecordVersions keys => .ok (s.eraseRecordVersions keys)

def RowOp.step (j : Serde) (op : RowOp) (s : RowStore) : Option RowStore := (op.run j s).toOption

end Rows

end Xtable
