import Xtable.Backend.Client
import Xtable.Storage.Read

/-! Cold rebuild from the chunks in the bucket: every chunk is fetched and decoded first, and what was found is
    written in a fixed sequence of store transactions, between any two of which a crash can fall. -/

namespace Xtable

/-- The store transactions of a rebuild. -/
inductive RebuildAct where
  | putChunkIndex (chunkId : String) (entry : ChunkIndexEntry)
  | putRecordIndex (rk : RecordKey) (entry : RecordIndexEntry)
  | putVersionsBulk (updates : List (String × VersionRecord))
  | putRecordVersionsBulk (updates : List (RecordKey × RecordIndexEntry × Bytes))
  | appendChainEntriesBulk (entries : List (String × VersionEntry × Nat))
  | setGlobalVersion (v : Nat)

@[reducible] def RebuildAct.Res : RebuildAct → Type
  | appendChainEntriesBulk _ => Except XtableError Unit
  | _ => Unit

def RebuildAct.exec : (a : RebuildAct) → Store → a.Res × Store
  | .putChunkIndex chunkId entry, s => ((), s.putChunkIndex chunkId entry)
  | .putRecordIndex rk entry, s => ((), s.putRecordIndex rk entry)
  | .putVersionsBulk updates, s => ((), s.putVersionsBulk updates)
  | .putRecordVersionsBulk updates, s => ((), s.putRecordVersionsBulk updates)
  | .appendChainEntriesBulk entries, s => s.appendChainEntriesBulk entries
  | .setGlobalVersion v, s => ((), s.setGlobalVersion v)

namespace Rebuild

open Prog (fail forEach)

abbrev Rebuilder (α : Type) : Type := Prog RebuildAct.Res Fault α

abbrev ask (a : RebuildAct) : Rebuilder a.Res := .perform a

abbrev appendChainEntriesBulk (entries : List (String × VersionEntry × Nat)) : Rebuilder (Except XtableError Unit) :=
  ask (.appendChainEntriesBulk entries)

structure Report where
  objectsScanned : Nat
  versionsRebuilt : Nat
  orphansDeleted : Nat
  deriving DecidableEq, Repr

/-- The newest entry of a record found so far. -/
structure PerKey where
  commitVersion : Nat
  chunkS3Key : String
  chunkId : String
  entry : ChunkEntry
  size : Nat
  etag : String

/-- One entry of a chunk, and where it was found. -/
structure HistoricalRecord where
  key : RecordKey
  entry : ChunkEntry
  chunkS3Key : String
  chunkId : String
  etag : String

/-! ## Rows -/

def recordIndexFromEntry (e : ChunkEntry) (chunkId : String) : RecordIndexEntry :=
  ⟨e.commitVersion.toNat, e.deleted, chunkId, e.schemaVersion.toNat, e.txnId⟩

def versionRecordFromEntry (e : ChunkEntry) (chunkS3Key : String) (size : Nat) : VersionRecord :=
  ⟨e.commitVersion.toNat, chunkS3Key, e.txnId, e.deleted, size⟩

def versionEntryFromEntry (e : ChunkEntry) (chunkS3Key etag : String) (size : Nat) : VersionEntry :=
  ⟨e.commitVersion.toNat, etag, chunkS3Key, e.txnId, size, e.deleted⟩

/-- The key of a record in `TBL_VERSIONS` and `TBL_VERSION_CHAINS`. -/
def recordKey (space table recordId : String) : String :=
  "_xtable/" ++ space ++ "/" ++ table ++ "/" ++ recordId

/-- `u64::MAX`. -/
def noConflict : Nat := 2 ^ 64 - 1

/-! ## The scan -/

/-- A chunk that was fetched and decoded. -/
structure Chunk where
  lo : ListedObject
  header : ChunkHeader
  entries : List ChunkEntry
  deriving DecidableEq

/-- A decoder's error makes the scan skip the object; a panic ends it. -/
def orSkip {α : Type} : Except Fault α → Except Fault (Option α)
  | .ok a => .ok (some a)
  | .error (.error _) => .ok none
  | .error .panic => .error .panic

/-- Fetch and decode one object; `none` if it is skipped. -/
def scanObject (c : Codecs) (backend : Backend) (lo : ListedObject) : Except Fault (Option Chunk) :=
  if ".xtc".toList.isSuffixOf lo.key.toList then
    match backend.objects[lo.key]? with
    | none => .ok none
    | some bytes => orSkip do
      let (header, _) ← ChunkHeader.decode c bytes
      let body ← decompressBody c bytes
      let entries ← decodeBodyEntries c body header.recordCount
      return ⟨lo, header, entries⟩
  else .ok none

/-- The chunks of a bucket, in the order of the listing. -/
def scanObjects (c : Codecs) (backend : Backend) : List ListedObject → Except Fault (List Chunk)
  | [] => .ok []
  | lo :: rest => do
    let found ← scanObject c backend lo
    let chunks ← scanObjects c backend rest
    return found.toList ++ chunks

def Chunk.versionMin (ch : Chunk) : WithTop Nat :=
  ch.entries.foldl (fun lo e => min lo (e.commitVersion.toNat : WithTop Nat)) ⊤

def Chunk.versionMax (ch : Chunk) : Nat := ch.entries.foldl (fun hi e => max hi e.commitVersion.toNat) 0

/-- The row of a chunk in `TBL_CHUNK_INDEX`; its bloom filter is not read back. -/
def Chunk.indexEntry (ch : Chunk) : ChunkIndexEntry where
  s3Key := ch.lo.key
  space := ch.header.space
  table := ch.header.table
  shard := 0
  keyMin := ch.header.keyMin
  keyMax := ch.header.keyMax
  commitVersionMin := ch.versionMin
  commitVersionMax := ch.versionMax
  walSeqFirst := ((ch.entries.head?.map (·.walSeq.toNat)).getD 0 : Nat)
  walSeqLast := (ch.entries.getLast?.map (·.walSeq.toNat)).getD 0
  sizeBytes := ch.lo.size
  bloom := none
  status := .live

def Chunk.historical (ch : Chunk) : List HistoricalRecord :=
  ch.entries.map fun e => ⟨(e.space, e.table, e.recordId), e, ch.lo.key, ch.header.chunkId, ch.lo.etag⟩

def HistoricalRecord.perKey (h : HistoricalRecord) : PerKey :=
  ⟨h.entry.commitVersion.toNat, h.chunkS3Key, h.chunkId, h.entry, h.entry.value.length, h.etag⟩

/-- Keep the newest entry of each record. -/
def notePerKey (per : Table RecordKey PerKey) (h : HistoricalRecord) : Table RecordKey PerKey :=
  match per[h.key]? with
  | none => per.insert h.key h.perKey
  | some cur => if cur.commitVersion < h.entry.commitVersion.toNat then per.insert h.key h.perKey else per

/-! ## Writing what was found -/

/-- The order of the historical records: by key, then by commit version. -/
def historyLe (a b : HistoricalRecord) : Prop :=
  ((compare a.key b.key).then (compare a.entry.commitVersion.toNat b.entry.commitVersion.toNat)) ≠ .gt

instance : DecidableRel historyLe := fun _ _ => inferInstanceAs (Decidable (_ ≠ _))

def HistoricalRecord.update (h : HistoricalRecord) : RecordKey × RecordIndexEntry × Bytes :=
  (h.key, recordIndexFromEntry h.entry h.chunkId, h.entry.value)

def HistoricalRecord.chainEntry (h : HistoricalRecord) : String × VersionEntry × Nat :=
  (recordKey h.key.1 h.key.2.1 h.key.2.2,
    versionEntryFromEntry h.entry h.chunkS3Key h.etag h.entry.value.length, noConflict)

def versionUpdate (x : RecordKey × PerKey) : String × VersionRecord :=
  (recordKey x.1.1 x.1.2.1 x.1.2.2, versionRecordFromEntry x.2.entry x.2.chunkS3Key x.2.size)

/-- Write a table in one transaction, unless there is nothing to write. -/
def unlessEmpty {α : Type} (l : List α) (p : Rebuilder Unit) : Rebuilder Unit :=
  if l.isEmpty then pure () else p

/-- The store transactions of a rebuild. `order` is the order in which the hash map of the newest entries is
iterated. -/
def persist (order : List (RecordKey × PerKey) → List (RecordKey × PerKey)) (scanned : Nat) (chunks : List Chunk) :
    Rebuilder Report := do
  let all := chunks.flatMap Chunk.historical
  let historical := all.insertionSort historyLe
  let newest := order (all.foldl notePerKey ∅).toList
  forEach chunks fun ch => ask (.putChunkIndex ch.header.chunkId ch.indexEntry)
  forEach newest fun x => ask (.putRecordIndex x.1 (recordIndexFromEntry x.2.entry x.2.chunkId))
  unlessEmpty newest (ask (.putVersionsBulk (newest.map versionUpdate)))
  unlessEmpty historical (ask (.putRecordVersionsBulk (historical.map HistoricalRecord.update)))
  unlessEmpty historical do
    match ← appendChainEntriesBulk (historical.map HistoricalRecord.chainEntry) with
    | .ok _ => pure ()
    | .error x => fail (.error x)
  ask (.setGlobalVersion (all.foldl (fun v h => max v h.entry.commitVersion.toNat) 0))
  return ⟨scanned, historical.length, 0⟩

end Rebuild

/-- `rebuild`: `listed` is the answer of `list_objects`. -/
def rebuild (c : Codecs) (backend : Backend) (listed : Except String (List ListedObject))
    (order : List (RecordKey × Rebuild.PerKey) → List (RecordKey × Rebuild.PerKey)) : Rebuild.Rebuilder Rebuild.Report :=
  match listed with
  | .error e => .fail (.error (.backend ("cold rebuild failed: backend unreachable: " ++ e)))
  | .ok objects =>
    match Rebuild.scanObjects c backend objects with
    | .error x => .fail x
    | .ok chunks => Rebuild.persist order objects.length chunks

end Xtable
