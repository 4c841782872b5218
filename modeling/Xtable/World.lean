import Xtable.Lib.Prog
import Xtable.Storage.Store
import Xtable.Storage.Memtable
import Xtable.Tx.LockManager
import Xtable.Schema.Value

/-! The process state and its atomic actions. Every operation is a program over the actions below: one redb
    transaction each, or one step on the in-memory parts (lock manager, memtables, pending map), the spill directory
    or the bucket. A crash can fall between any two of them; concurrent calls interleave at them. -/

namespace Xtable

structure PendingRecord where
  space : String
  table : String
  recordId : String
  schemaVersion : Nat
  body : Value
  deleted : Bool
  backendKey : String

structure PendingSchema where
  space : String
  name : String
  version : Nat
  body : Value
  backendKey : String

/-- What a structured transaction has staged, in call order. -/
structure PendingTxn where
  records : List PendingRecord := []
  schemas : List PendingSchema := []

def PendingTxn.addRecord (p : PendingTxn) (r : PendingRecord) : PendingTxn :=
  { p with records := p.records ++ [r] }

def PendingTxn.addSchema (p : PendingTxn) (s : PendingSchema) : PendingTxn :=
  { p with schemas := p.schemas ++ [s] }

/-- A server process: the durable store, files and bucket, and what it holds in memory. -/
structure World where
  store : Store := {}
  locks : SiLockManager := {}
  mems : MemTableSet := {}
  pending : Table String PendingTxn := ∅
  files : Table String Bytes := ∅
  bucket : Table String Bytes := ∅

/-- A crash loses everything in memory. -/
def World.crash (w : World) : World := { store := w.store, files := w.files, bucket := w.bucket }

inductive Act where
  | captureAndRegisterSnapshot
  | unregisterSnapshot (snapshot : Nat)
  | getTxnState (t : String)
  | putTxnState (t : String) (rec : TxnStateRecord)
  | deleteTxnState (t : String)
  | compareAndSetTxnStatus (t : String) (expected next : TxnStatus)
  | appendWal (rec : WalRecord)
  | iterWal
  | putWriteEntry (t key : String) (entry : WriteSetEntry)
  | deleteWriteEntry (t key : String)
  | iterWriteSet (t : String)
  | putBlob (handle : String) (rec : BlobRecord)
  | getBlob (handle : String)
  | deleteBlob (handle : String)
  | scanStale (cutoffMs : Int)
  | nextGlobalVersion
  | readChain (key : String)
  | appendChainEntriesBulk (entries : List (String × VersionEntry × Nat))
  | putVersionsBulk (updates : List (String × VersionRecord))
  | gcChainsAtActiveSnapshot
  | getRecordIndex (rk : RecordKey)
  | putRecordIndexWithBody (rk : RecordKey) (entry : RecordIndexEntry) (bodyJson : String) (body : Bytes)
  | getSchemaIndex (space name : String)
  | putSchemaIndex (space name : String) (entry : SchemaIndexEntry)
  | putChunkIndex (chunkId : String) (entry : ChunkIndexEntry)
  | updateRecordIndexChunkIdForVersion (rk : RecordKey) (commitVersion : Nat) (chunkId : String)
  | setFlushedSeq (seq : Nat)
  | truncateWal (upToSeq : Nat)
  | lockBeginTxn (t : String) (snapshotVersion : Nat)
  | registerRead (t key : String) (versionObserved : Nat) (etag : String)
  | registerWrite (t key : String) (versionToWrite : Nat)
  | findDangerousStructure (t : String)
  | markCommitted (t : String) (commitVersion : Nat)
  | markAborted (t : String)
  | memPutInvisible (entry : MemEntry) (aged : Bool)
  | memPublish (key : RecordKey) (commitVersion : Nat)
  | pendingRecord (t : String) (r : PendingRecord)
  | pendingSchema (t : String) (s : PendingSchema)
  | pendingTake (t : String)
  | latestSchemaVersionInTxn (t space name : String)
  | writeFile (path : String) (body : Bytes)
  | readFile (path : String)
  | removeFile (path : String)
  | putObject (key : String) (body : Bytes)

/-- What an action answers. -/
@[reducible] def Act.Res : Act → Type
  | captureAndRegisterSnapshot | nextGlobalVersion | appendWal _ | truncateWal _ => Nat
  | getTxnState _ => Option TxnStateRecord
  | compareAndSetTxnStatus _ _ _ | updateRecordIndexChunkIdForVersion _ _ _ => Bool
  | iterWal => List (Nat × WalRecord)
  | iterWriteSet _ => WriteSet
  | getBlob _ => Option BlobRecord
  | scanStale _ => List String
  | readChain _ => VersionChain
  | appendChainEntriesBulk _ | lockBeginTxn _ _ => Except XtableError Unit
  | gcChainsAtActiveSnapshot => Nat × Nat
  | getRecordIndex _ => Option RecordIndexEntry
  | getSchemaIndex _ _ => Option SchemaIndexEntry
  | findDangerousStructure _ => Option String
  | pendingTake _ => PendingTxn
  | latestSchemaVersionInTxn _ _ _ => Option Nat
  | readFile _ => Option Bytes
  | _ => Unit

namespace World

def onStore {α : Type} (w : World) (r : α × Store) : α × World := (r.1, { w with store := r.2 })

def setStore (w : World) (s : Store) : Unit × World := ((), { w with store := s })

def setLocks (w : World) (m : SiLockManager) : Unit × World := ((), { w with locks := m })

/-- `PendingMap`'s entry of a transaction. -/
def pendingOf (w : World) (t : String) : PendingTxn := (w.pending[t]?).getD {}

/-- The effect of each action. -/
def exec : (a : Act) → World → a.Res × World
  | .captureAndRegisterSnapshot, w => w.onStore w.store.captureAndRegisterSnapshot
  | .unregisterSnapshot snapshot, w => w.setStore (w.store.unregisterSnapshot snapshot)
  | .getTxnState t, w => (w.store.getTxnState t, w)
  | .putTxnState t rec, w => w.setStore (w.store.putTxnState t rec)
  | .deleteTxnState t, w => w.setStore (w.store.deleteTxnState t)
  | .compareAndSetTxnStatus t expected next, w =>
    w.onStore (w.store.compareAndSetTxnStatus t expected next)
  | .appendWal rec, w => w.onStore (w.store.appendWal rec)
  | .iterWal, w => (w.store.iterWal, w)
  | .putWriteEntry t key entry, w => w.setStore (w.store.putWriteEntry t key entry)
  | .deleteWriteEntry t key, w => w.setStore (w.store.deleteWriteEntry t key)
  | .iterWriteSet t, w => (w.store.iterWriteSet t, w)
  | .putBlob handle rec, w => w.setStore (w.store.putBlob handle rec)
  | .getBlob handle, w => (w.store.getBlob handle, w)
  | .deleteBlob handle, w => w.setStore (w.store.deleteBlob handle)
  | .scanStale cutoffMs, w => (w.store.scanStale cutoffMs, w)
  | .nextGlobalVersion, w => w.onStore w.store.nextGlobalVersion
  | .readChain key, w => (w.store.readChain key, w)
  | .appendChainEntriesBulk entries, w => w.onStore (w.store.appendChainEntriesBulk entries)
  | .putVersionsBulk updates, w => w.setStore (w.store.putVersionsBulk updates)
  | .gcChainsAtActiveSnapshot, w => w.onStore w.store.gcChainsAtActiveSnapshot
  | .getRecordIndex rk, w => (w.store.getRecordIndex rk, w)
  | .putRecordIndexWithBody rk entry bodyJson body, w =>
    w.setStore (w.store.putRecordIndexWithBody rk entry bodyJson body)
  | .getSchemaIndex space name, w => (w.store.getSchemaIndex space name, w)
  | .putSchemaIndex space name entry, w => w.setStore (w.store.putSchemaIndex space name entry)
  | .putChunkIndex chunkId entry, w => w.setStore (w.store.putChunkIndex chunkId entry)
  | .updateRecordIndexChunkIdForVersion rk commitVersion chunkId, w =>
    w.onStore (w.store.updateRecordIndexChunkIdForVersion rk commitVersion chunkId)
  | .setFlushedSeq seq, w => w.setStore (w.store.setFlushedSeq seq)
  | .truncateWal upToSeq, w => w.onStore (w.store.truncateWal upToSeq)
  | .lockBeginTxn t snapshotVersion, w =>
    ((w.locks.beginTxn t snapshotVersion).1, { w with locks := (w.locks.beginTxn t snapshotVersion).2 })
  | .registerRead t key versionObserved etag, w => w.setLocks (w.locks.registerRead t key versionObserved etag)
  | .registerWrite t key versionToWrite, w => w.setLocks (w.locks.registerWrite t key versionToWrite)
  | .findDangerousStructure t, w => (w.locks.findDangerousStructure t, w)
  | .markCommitted t commitVersion, w => w.setLocks (w.locks.markCommitted t commitVersion)
  | .markAborted t, w => w.setLocks (w.locks.markAborted t)
  | .memPutInvisible entry aged, w => ((), { w with mems := w.mems.putInvisible entry aged })
  | .memPublish key commitVersion, w => ((), { w with mems := w.mems.publish key commitVersion })
  | .pendingRecord t r, w =>
    ((), { w with pending := w.pending.insert t ((w.pendingOf t).addRecord r) })
  | .pendingSchema t s, w =>
    ((), { w with pending := w.pending.insert t ((w.pendingOf t).addSchema s) })
  | .pendingTake t, w => (w.pendingOf t, { w with pending := w.pending.erase t })
  | .latestSchemaVersionInTxn t space name, w =>
    (((w.pendingOf t).schemas.reverse.find? fun s => s.space = space && s.name = name).map (·.version), w)
  | .writeFile path body, w => ((), { w with files := w.files.insert path body })
  | .readFile path, w => (w.files[path]?, w)
  | .removeFile path, w => ((), { w with files := w.files.erase path })
  | .putObject key body, w => ((), { w with bucket := w.bucket.insert key body })

end World

/-- A program of the server. -/
abbrev Server (α : Type) : Type := Prog Act.Res XtableError α

abbrev Act.ask (a : Act) : Server a.Res := .perform a

/-! The actions as programs. -/

namespace Server

abbrev captureAndRegisterSnapshot : Server Nat := Act.ask .captureAndRegisterSnapshot
abbrev unregisterSnapshot (snapshot : Nat) : Server Unit := Act.ask (.unregisterSnapshot snapshot)
abbrev getTxnState (t : String) : Server (Option TxnStateRecord) := Act.ask (.getTxnState t)
abbrev putTxnState (t : String) (rec : TxnStateRecord) : Server Unit := Act.ask (.putTxnState t rec)
abbrev deleteTxnState (t : String) : Server Unit := Act.ask (.deleteTxnState t)
abbrev compareAndSetTxnStatus (t : String) (expected next : TxnStatus) :
    Server Bool := Act.ask (.compareAndSetTxnStatus t expected next)
abbrev appendWal (rec : WalRecord) : Server Nat := Act.ask (.appendWal rec)
abbrev iterWal : Server (List (Nat × WalRecord)) := Act.ask .iterWal
abbrev putWriteEntry (t key : String) (entry : WriteSetEntry) : Server Unit := Act.ask (.putWriteEntry t key entry)
abbrev deleteWriteEntry (t key : String) : Server Unit := Act.ask (.deleteWriteEntry t key)
abbrev iterWriteSet (t : String) : Server (WriteSet) := Act.ask (.iterWriteSet t)
abbrev putBlob (handle : String) (rec : BlobRecord) : Server Unit := Act.ask (.putBlob handle rec)
abbrev getBlob (handle : String) : Server (Option BlobRecord) := Act.ask (.getBlob handle)
abbrev deleteBlob (handle : String) : Server Unit := Act.ask (.deleteBlob handle)
abbrev scanStale (cutoffMs : Int) : Server (List String) := Act.ask (.scanStale cutoffMs)
abbrev nextGlobalVersion : Server Nat := Act.ask .nextGlobalVersion
abbrev readChain (key : String) : Server VersionChain := Act.ask (.readChain key)
abbrev appendChainEntriesBulk (entries : List (String × VersionEntry × Nat)) :
    Server (Except XtableError Unit) := Act.ask (.appendChainEntriesBulk entries)
abbrev putVersionsBulk (updates : List (String × VersionRecord)) : Server Unit := Act.ask (.putVersionsBulk updates)
abbrev gcChainsAtActiveSnapshot : Server (Nat × Nat) := Act.ask .gcChainsAtActiveSnapshot
abbrev getRecordIndex (rk : RecordKey) : Server (Option RecordIndexEntry) := Act.ask (.getRecordIndex rk)
abbrev putRecordIndexWithBody (rk : RecordKey) (entry : RecordIndexEntry) (bodyJson : String) (body : Bytes) :
    Server Unit := Act.ask (.putRecordIndexWithBody rk entry bodyJson body)
abbrev getSchemaIndex (space name : String) : Server (Option SchemaIndexEntry) := Act.ask (.getSchemaIndex space name)
abbrev putSchemaIndex (space name : String) (entry : SchemaIndexEntry) :
    Server Unit := Act.ask (.putSchemaIndex space name entry)
abbrev putChunkIndex (chunkId : String) (entry : ChunkIndexEntry) :
    Server Unit := Act.ask (.putChunkIndex chunkId entry)
abbrev updateRecordIndexChunkIdForVersion (rk : RecordKey) (commitVersion : Nat) (chunkId : String) :
    Server Bool := Act.ask (.updateRecordIndexChunkIdForVersion rk commitVersion chunkId)
abbrev setFlushedSeq (seq : Nat) : Server Unit := Act.ask (.setFlushedSeq seq)
abbrev truncateWal (upToSeq : Nat) : Server Nat := Act.ask (.truncateWal upToSeq)
abbrev lockBeginTxn (t : String) (snapshotVersion : Nat) :
    Server (Except XtableError Unit) := Act.ask (.lockBeginTxn t snapshotVersion)
abbrev registerRead (t key : String) (versionObserved : Nat) (etag : String) :
    Server Unit := Act.ask (.registerRead t key versionObserved etag)
abbrev registerWrite (t key : String) (versionToWrite : Nat) :
    Server Unit := Act.ask (.registerWrite t key versionToWrite)
abbrev findDangerousStructure (t : String) : Server (Option String) := Act.ask (.findDangerousStructure t)
abbrev markCommitted (t : String) (commitVersion : Nat) : Server Unit := Act.ask (.markCommitted t commitVersion)
abbrev markAborted (t : String) : Server Unit := Act.ask (.markAborted t)
abbrev memPutInvisible (entry : MemEntry) (aged : Bool) : Server Unit := Act.ask (.memPutInvisible entry aged)
abbrev memPublish (key : RecordKey) (commitVersion : Nat) : Server Unit := Act.ask (.memPublish key commitVersion)
abbrev pendingRecord (t : String) (r : PendingRecord) : Server Unit := Act.ask (.pendingRecord t r)
abbrev pendingSchema (t : String) (s : PendingSchema) : Server Unit := Act.ask (.pendingSchema t s)
abbrev pendingTake (t : String) : Server PendingTxn := Act.ask (.pendingTake t)
abbrev latestSchemaVersionInTxn (t space name : String) :
    Server (Option Nat) := Act.ask (.latestSchemaVersionInTxn t space name)
abbrev writeFile (path : String) (body : Bytes) : Server Unit := Act.ask (.writeFile path body)
abbrev readFile (path : String) : Server (Option Bytes) := Act.ask (.readFile path)
abbrev removeFile (path : String) : Server Unit := Act.ask (.removeFile path)
abbrev putObject (key : String) (body : Bytes) : Server Unit := Act.ask (.putObject key body)

end Server

/-- What the server takes from elsewhere: its spill directory, SHA-256, and `serde_json`'s text of a value. -/
structure Env where
  spillDir : String
  sha256 : Bytes → Vector UInt8 32
  jsonText : Value → String

/-- `hex::encode`. -/
def hexEncode (bytes : Bytes) : String :=
  String.ofList (bytes.flatMap fun b => [Nat.digitChar (b.toNat / 16), Nat.digitChar (b.toNat % 16)])

/-- `uuid_like`: the suffix of a spill file, from 12 bytes of a digest. -/
def Env.uuidLike (env : Env) (s : String) : String := hexEncode ((env.sha256 (utf8 s)).toList.take 12)

/-- A small environment to evaluate runs in; its digest of a key is how the key ends. -/
def Env.sample : Env := ⟨"/spill", fun bytes => .ofFn fun i => bytes.reverse.getD i 0, fun _ => "null"⟩

end Xtable
