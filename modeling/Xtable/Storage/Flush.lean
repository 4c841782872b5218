import Xtable.Storage.Chunk
import Xtable.World

/-! `flush_one` writes the visible entries of an immutable memtable to a chunk: it uploads the file, indexes it,
    points the record rows at it, and cuts the WAL. -/

namespace Xtable

namespace Flush

open Server
open Prog (fail forEach)

/-- The entry of a chunk for a memtable entry, unless that is invisible. -/
def chunkEntry (e : MemEntry) : Option ChunkEntry :=
  match e.commitVersion with
  | none => none
  | some cv => some ⟨e.key.1, e.key.2.1, e.key.2.2, e.value, UInt64.ofNat cv, e.txnId, e.deleted, e.contentType, e.userMeta,
      UInt32.ofNat e.schemaVersion, UInt64.ofNat e.walSeq⟩

/-- The file of the visible entries; there is none if nothing is visible. -/
def chunkFile (c : Codecs) (chunkId : String) (nowMs : Int64) (entries : List MemEntry) :
    Except XtableError (Option (Bytes × ChunkHeader × ChunkFooter)) :=
  match entries.filterMap chunkEntry with
  | [] => .ok none
  | e :: es => do
    let writer ← ChunkWriter.appendAll c (e :: es) { chunkId, space := e.space, table := e.table }
    return some (← writer.finalize c nowMs)

def computeShard (c : Codecs) (keyMin : Bytes) : UInt8 := (c.xxh3 keyMin).toUInt8

def s3Key (c : Codecs) (chunkId : String) (header : ChunkHeader) : String :=
  "_xtable/" ++ header.space ++ "/" ++ header.table ++ "/" ++ toString (computeShard c header.keyMin) ++ "/" ++ chunkId ++ ".xtc"

/-- The row of a flushed chunk in `TBL_CHUNK_INDEX`. -/
def indexEntry (c : Codecs) (chunkId : String) (mt : MemTable) (file : Bytes) (header : ChunkHeader) (footer : ChunkFooter) :
    ChunkIndexEntry where
  s3Key := s3Key c chunkId header
  space := header.space
  table := header.table
  shard := computeShard c header.keyMin
  keyMin := header.keyMin
  keyMax := header.keyMax
  commitVersionMin := mt.versionMin
  commitVersionMax := mt.versionMax
  walSeqFirst := mt.earliestSeq
  walSeqLast := mt.latestSeq
  sizeBytes := file.length
  bloom := some footer.bloom
  status := .live

/-- `update_record_index_after_flush`. -/
def updateRecordIndexAfterFlush (chunkId : String) (entries : List MemEntry) : Server Unit :=
  forEach entries fun e =>
    match e.commitVersion with
    | none => pure ()
    | some cv => do
      let _ ← updateRecordIndexChunkIdForVersion e.key cv chunkId

/-- `flush_one` under a new chunk id; `entries` are those of the memtable, in the order in which its map is iterated. -/
def flushOne (c : Codecs) (chunkId : String) (nowMs : Int64) (entries : List MemEntry) (mt : MemTable) : Server Unit :=
  if mt.earliestSeq = ⊤ ∨ mt.latestSeq = 0 then pure ()
  else
    match chunkFile c chunkId nowMs entries with
    | .error e => fail e
    | .ok none => pure ()
    | .ok (some (file, header, footer)) => do
      putObject (s3Key c chunkId header) file
      putChunkIndex chunkId (indexEntry c chunkId mt file header footer)
      updateRecordIndexAfterFlush chunkId entries
      let _ ← appendWal (.memtableFlushed chunkId mt.latestSeq mt.versionMax)
      setFlushedSeq mt.latestSeq
      let _ ← truncateWal mt.latestSeq

end Flush

/-! ## The flush loop -/

def MemTable.entries (mt : MemTable) : List MemEntry := mt.map.toList.map (·.2)

namespace World

/-- A chunk id as `Ulid::new` draws it: not used before, and with no slash in it. -/
def freshChunkId (w : World) (chunkId : String) : Bool :=
  '/' ∉ chunkId.toList && (w.store.chunkIndex[chunkId]?).isNone &&
    w.bucket.toList.all fun x => !("/" ++ chunkId ++ ".xtc").toList.isSuffixOf x.1.toList

/-- Put a memtable back into the queue. -/
def requeue (w : World) (mt : MemTable) : World := { w with mems := { w.mems with flushing := w.mems.flushing ++ [mt] } }

/-- `flush_loop` takes the oldest immutable memtable and flushes it; one that fails goes back into the queue. -/
def flush (c : Codecs) (chunkId : String) (nowMs : Int64) (entries : List MemEntry) (w : World) : Option World :=
  match w.mems.flushing with
  | [] => none
  | mt :: rest =>
    if entries.Perm mt.entries ∧ w.freshChunkId chunkId then
      match (Flush.flushOne c chunkId nowMs entries mt).run exec { w with mems := { w.mems with flushing := rest } } with
      | (.ok _, w') => some w'
      | (.error _, w') => some (w'.requeue mt)
    else none

/-- A flush that fails after `n` of its actions. -/
def failedFlush (c : Codecs) (chunkId : String) (nowMs : Int64) (entries : List MemEntry) (n : Nat) (w : World) : Option World :=
  match w.mems.flushing with
  | [] => none
  | mt :: rest =>
    if entries.Perm mt.entries ∧ w.freshChunkId chunkId then
      some (((Flush.flushOne c chunkId nowMs entries mt).advance exec n { w with mems := { w.mems with flushing := rest } }).2.requeue mt)
    else none

/-- `try_rotate_active`, when the active memtable is full or aged. -/
def rotate (w : World) : World := { w with mems := w.mems.rotate }

end World

end Xtable
