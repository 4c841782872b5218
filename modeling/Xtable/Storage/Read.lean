import Xtable.Storage.Chunk
import Xtable.Storage.Store
import Xtable.Storage.Memtable

/-! A read at a snapshot asks the active memtable, the immutable ones from the newest on, the historical record
    rows, and last the latest row; a row without a usable body leads to a chunk in the bucket. -/

namespace Xtable

/-- The bucket as a client sees it: its objects, their ETags, and the text of the error for a missing one. -/
structure Backend where
  objects : Table String Bytes := ∅
  etag : String → String := fun _ => ""
  notFound : String → String := fun _ => ""

inductive ReadSource where
  | active
  | immutable
  | recordIndex
  | chunk
  | notFound
  deriving DecidableEq, Repr

structure ReadResult where
  body : Bytes
  commitVersion : Nat
  txnId : String
  deleted : Bool
  contentType : Option String
  userMeta : List (String × String)
  schemaVersion : Nat
  source : ReadSource
  deriving DecidableEq, Repr

namespace Read

def entryToResult (e : MemEntry) (cv : Nat) (source : ReadSource) : ReadResult :=
  ⟨e.value, cv, e.txnId, e.deleted, e.contentType, e.userMeta, e.schemaVersion, source⟩

/-- What one memtable answers. -/
def fromMemTable (mt : MemTable) (rk : RecordKey) (snapshot : Nat) (source : ReadSource) : Option ReadResult :=
  match mt.getVisible rk snapshot with
  | none => none
  | some e =>
    match e.commitVersion with
    | none => none
    | some cv => if cv ≤ snapshot then some (entryToResult e cv source) else none

/-- The immutable memtables are asked from the newest on. -/
def fromImmutables (flushing : List MemTable) (rk : RecordKey) (snapshot : Nat) : Option ReadResult :=
  flushing.reverse.findSome? fun mt => fromMemTable mt rk snapshot .immutable

def tombstoneResult (idx : RecordIndexEntry) : ReadResult :=
  ⟨[], idx.commitVersion, idx.txnId, true, none, [], idx.schemaVersion, .notFound⟩

/-- `Iterator::max_by_key`, which keeps the last of several greatest elements. -/
def maxByKey {α : Type} (f : α → Nat) (l : List α) : Option α :=
  l.foldl (fun best x =>
    match best with
    | none => some x
    | some y => if f y ≤ f x then some x else some y) none

def chunkResult (e : ChunkEntry) : ReadResult :=
  ⟨e.value, e.commitVersion.toNat, e.txnId, e.deleted, e.contentType, e.userMeta, e.schemaVersion.toNat,
    if e.deleted then .notFound else .chunk⟩

/-- The entries of a chunk that a read of `rk` at a snapshot may answer. -/
def chunkMatches (rk : RecordKey) (snapshot : Nat) (e : ChunkEntry) : Bool :=
  e.space = rk.1 && e.table = rk.2.1 && e.recordId = rk.2.2 && e.commitVersion.toNat ≤ snapshot

/-- How many entries a chunk is taken to have, in `u64` arithmetic; it only sizes an allocation. -/
def expectedCount (chunk : ChunkIndexEntry) : UInt64 :=
  UInt64.ofNat chunk.commitVersionMax - UInt64.ofNat (chunk.commitVersionMin.untopD (2 ^ 64 - 1)) + 1

/-- `lookup_chunk_for_record`. -/
def lookupChunkForRecord (store : Store) (idx : RecordIndexEntry) : Option ChunkIndexEntry :=
  store.getChunkIndex idx.chunkId

def readFromChunk (c : Codecs) (store : Store) (backend : Backend) (rk : RecordKey) (snapshot : Nat)
    (idx : RecordIndexEntry) : Except Fault (Option ReadResult) :=
  match lookupChunkForRecord store idx with
  | none => .ok none
  | some chunk =>
    if chunk.bloom.any fun bloom => !bloomMayContain c bloom (composeKeyBytes rk.1 rk.2.1 rk.2.2) then .ok none
    else
      match backend.objects[chunk.s3Key]? with
      | none => .error (.error (.backend (backend.notFound chunk.s3Key)))
      | some fileBytes => do
        let body ← decompressBody c fileBytes
        let entries ← decodeBodyEntries c body (expectedCount chunk)
        let hit := maxByKey (·.commitVersion.toNat) (entries.filter (chunkMatches rk snapshot))
        return hit.map chunkResult

/-- The answer of the record tables. -/
def fromIndex (c : Codecs) (store : Store) (backend : Backend) (rk : RecordKey) (snapshot : Nat) :
    Except Fault (Option ReadResult) :=
  match store.getRecordVersionAtSnapshot rk snapshot with
  | some (idx, body) =>
    if idx.deleted then .ok (some (tombstoneResult idx))
    -- before the first flush the chunk pointer leads nowhere, and the body of the row answers
    else if body ≠ [] ∧ (store.getChunkIndex idx.chunkId).isNone then
      .ok (some ⟨body, idx.commitVersion, idx.txnId, false, none, [], idx.schemaVersion, .recordIndex⟩)
    else readFromChunk c store backend rk snapshot idx
  | none =>
    match store.getRecordIndex rk with
    | none => .ok none
    | some idx =>
      if snapshot < idx.commitVersion then .ok none
      else if idx.deleted then .ok (some (tombstoneResult idx))
      else readFromChunk c store backend rk snapshot idx

def readAtSnapshot (c : Codecs) (mems : MemTableSet) (store : Store) (backend : Backend) (rk : RecordKey)
    (snapshot : Nat) : Except Fault (Option ReadResult) :=
  match fromMemTable mems.active rk snapshot .active with
  | some r => .ok (some r)
  | none =>
    match fromImmutables mems.flushing rk snapshot with
    | some r => .ok (some r)
    | none => fromIndex c store backend rk snapshot

end Read

end Xtable
