import Xtable.Storage.VersionChain

/-! The record types of the redb tables. Wall-clock stamps and digests that no code path reads back (`created_ms`,
    `updated_ms`, `sha256`, …) are left out. -/

namespace Xtable

/-- A row of `TBL_TXN_STATE`. -/
structure TxnStateRecord where
  status : TxnStatus
  snapshotVersion : Nat
  startedAtMs : Int
  lastHeartbeatMs : Int
  idempotencyKey : Option String
  readKeys : List String
  writeKeys : List String
  allocVersions : List (String × Nat)
  uploadedKeys : List String
  deriving DecidableEq, Repr

def TxnStateRecord.newActive (snapshotVersion : Nat) (idempotencyKey : Option String) (nowMs : Int) :
    TxnStateRecord where
  status := .active
  snapshotVersion := snapshotVersion
  startedAtMs := nowMs
  lastHeartbeatMs := nowMs
  idempotencyKey := idempotencyKey
  readKeys := []
  writeKeys := []
  allocVersions := []
  uploadedKeys := []

/-- A row of `TBL_WRITE_SET`, keyed by transaction and object key. -/
structure WriteSetEntry where
  backendKey : String
  bodyHandle : Option String
  inlineBody : Option Bytes
  size : Nat
  contentType : Option String
  userMeta : List (String × String)
  deleted : Bool
  deriving DecidableEq, Repr

/-- The staged writes of a transaction, by key. -/
abbrev WriteSet := List (String × WriteSetEntry)

/-- Where a staged body was spilled to. -/
structure BlobRecord where
  path : String
  size : Nat
  deriving DecidableEq, Repr

inductive WalRecord where
  | begin (txnId : String) (snapshotVersion : Nat) (idempotencyKey : Option String)
  | stage (txnId key : String) (bodyHandle : Option String)
  | committing (txnId : String) (uploadKeys : List String)
  | committed (txnId : String) (commitVersion : Nat)
  | commitResult (txnId : String) (commitVersion : Nat) (success : Bool)
  | aborted (txnId reason : String)
  | memtableFlushed (chunkId : String) (upToSeq : Nat) (upToCommitVersion : Nat)
  deriving DecidableEq, Repr

/-- The transaction a record is about; `none` for the global flush record. -/
def WalRecord.txnId : WalRecord → Option String
  | begin t _ _ | stage t _ _ | committing t _ | committed t _ | commitResult t _ _ | aborted t _ => some t
  | memtableFlushed _ _ _ => none

/-- A row of `TBL_VERSIONS`: the latest version of an object. -/
structure VersionRecord where
  latestVersion : Nat
  latestBackendKey : String
  lastWriterTxnId : String
  tombstone : Bool
  size : Nat
  deriving DecidableEq, Repr

/-- One version of a structured record. Until a flush has put the version into a chunk, `chunkId`
holds the record's backend key. -/
structure RecordIndexEntry where
  commitVersion : Nat
  deleted : Bool
  chunkId : String
  schemaVersion : Nat
  txnId : String
  deriving DecidableEq, Repr

/-- A row of `TBL_RECORD_INDEX`: the latest version of a record, with its body as JSON text. -/
structure StoredRecord where
  entry : RecordIndexEntry
  bodyJson : String
  deriving DecidableEq, Repr

/-- A row of `TBL_RECORD_VERSIONS`: one version of a record, with its body. -/
structure StoredRecordVersion where
  entry : RecordIndexEntry
  body : Bytes
  deriving DecidableEq, Repr

/-- A row of `TBL_SCHEMA_INDEX`. -/
structure SchemaIndexEntry where
  latestVersion : Nat
  chunkS3Key : String
  deriving DecidableEq, Repr

inductive ChunkStatus where
  | live
  | compacting
  | deleted
  deriving DecidableEq, Repr

/-- A row of `TBL_CHUNK_INDEX`. -/
structure ChunkIndexEntry where
  s3Key : String
  space : String
  table : String
  shard : UInt8
  keyMin : Bytes
  keyMax : Bytes
  commitVersionMin : WithTop Nat
  commitVersionMax : Nat
  walSeqFirst : WithTop Nat
  walSeqLast : Nat
  sizeBytes : Nat
  bloom : Option Bytes
  status : ChunkStatus

end Xtable
