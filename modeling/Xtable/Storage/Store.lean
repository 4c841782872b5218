import Xtable.Storage.Records

/-! `Store` is the content of the redb tables; each function is the effect of one redb transaction, which commits as
    a whole or, when it fails, leaves the tables as they were. -/

namespace Xtable

structure Store where
  /-- `TBL_META["global_version"]`. -/
  globalVersion : Nat := 0
  /-- `TBL_META["last_wal_seq"]`. -/
  lastWalSeq : Nat := 0
  /-- `TBL_META["last_flushed_seq"]`. -/
  lastFlushedSeq : Nat := 0
  wal : Table Nat WalRecord := ∅
  txnState : Table String TxnStateRecord := ∅
  writeSet : Table (String × String) WriteSetEntry := ∅
  stagedBlobs : Table String BlobRecord := ∅
  versions : Table String VersionRecord := ∅
  versionChains : Table String VersionChain := ∅
  /-- Reference counts of the registered snapshots. -/
  activeSnapshots : Table Nat Nat := ∅
  recordIndex : Table RecordKey StoredRecord := ∅
  recordVersions : Table (RecordKey × Nat) StoredRecordVersion := ∅
  schemaIndex : Table (String × String) SchemaIndexEntry := ∅
  chunkIndex : Table String ChunkIndexEntry := ∅

namespace Store

/-! ## Global version and WAL -/

def nextGlobalVersion (s : Store) : Nat × Store :=
  (s.globalVersion + 1, { s with globalVersion := s.globalVersion + 1 })

/-- `TBL_META["global_version"]`, set outright by a cold rebuild. -/
def setGlobalVersion (s : Store) (v : Nat) : Store := { s with globalVersion := v }

/-- Append a WAL record under the next sequence number. -/
def appendWal (s : Store) (rec : WalRecord) : Nat × Store :=
  (s.lastWalSeq + 1,
    { s with lastWalSeq := s.lastWalSeq + 1, wal := s.wal.insert (s.lastWalSeq + 1) rec })

/-- All WAL records in order of their sequence numbers. -/
def iterWal (s : Store) : List (Nat × WalRecord) := s.wal.toList

/-- Remove the WAL rows up to `upToSeq`; how many there were. -/
def truncateWal (s : Store) (upToSeq : Nat) : Nat × Store :=
  ((s.wal.toList.filter fun r => r.1 ≤ upToSeq).length,
    { s with wal := s.wal.filter fun seq _ => upToSeq < seq })

def setFlushedSeq (s : Store) (seq : Nat) : Store := { s with lastFlushedSeq := seq }

/-! ## Transaction rows and write sets -/

def getTxnState (s : Store) (t : String) : Option TxnStateRecord := s.txnState[t]?

def putTxnState (s : Store) (t : String) (rec : TxnStateRecord) : Store :=
  { s with txnState := s.txnState.insert t rec }

def deleteTxnState (s : Store) (t : String) : Store := { s with txnState := s.txnState.erase t }

/-- Move the status from `expected` to `next` if it still is `expected`. -/
def compareAndSetTxnStatus (s : Store) (t : String) (expected next : TxnStatus) : Bool × Store :=
  match s.txnState[t]? with
  | none => (false, s)
  | some rec =>
    if rec.status = expected then (true, s.putTxnState t { rec with status := next }) else (false, s)

def putWriteEntry (s : Store) (t key : String) (entry : WriteSetEntry) : Store :=
  { s with writeSet := s.writeSet.insert (t, key) entry }

def deleteWriteEntry (s : Store) (t key : String) : Store :=
  { s with writeSet := s.writeSet.erase (t, key) }

/-- The staged writes of a transaction, by key. -/
def iterWriteSet (s : Store) (t : String) : WriteSet :=
  (s.writeSet.toList.filter fun x => x.1.1 = t).map fun x => (x.1.2, x.2)

def putBlob (s : Store) (handle : String) (rec : BlobRecord) : Store :=
  { s with stagedBlobs := s.stagedBlobs.insert handle rec }

def getBlob (s : Store) (handle : String) : Option BlobRecord := s.stagedBlobs[handle]?

def deleteBlob (s : Store) (handle : String) : Store :=
  { s with stagedBlobs := s.stagedBlobs.erase handle }

/-- The `Active` transactions whose last heartbeat lies before the cutoff (the scan of
`sweep_stale_txns`). -/
def scanStale (s : Store) (cutoffMs : Int) : List String :=
  (s.txnState.toList.filter fun x => x.2.status = .active && x.2.lastHeartbeatMs < cutoffMs).map (·.1)

/-! ## Version chains -/

def readChain (s : Store) (key : String) : VersionChain :=
  (s.versionChains[key]?).getD (.new key)

def readAtSnapshot (s : Store) (key : String) (snapshot : Nat) : Option VersionEntry :=
  (s.readChain key).readAtSnapshot snapshot

/-- The text of a snapshot conflict. -/
def snapshotConflict (key : String) (snapshot latest : Nat) : String :=
  key ++ ": snapshot " ++ toString snapshot ++ " < chain latest " ++ toString latest

/-- One entry of a bulk append, on the chains as the entries before it left them. -/
def appendChainEntry (chains : Table String VersionChain) (item : String × VersionEntry × Nat) :
    Except XtableError (Table String VersionChain) :=
  let key := item.1
  let entry := item.2.1
  let snapshotVersion := item.2.2
  let chain := (chains[key]?).getD (.new key)
  let latest := chain.latestCommitVersion
  if chain.entries ≠ [] ∧ latest > snapshotVersion then
    .error (.conflict (snapshotConflict key snapshotVersion latest))
  else if entry.commitVersion = latest ∧ chain.entries.getLast?.any (fun current =>
      current.txnId = entry.txnId && current.backendKey = entry.backendKey &&
        current.deleted = entry.deleted) then
    -- a duplicate row of one batch is already represented by the entry just appended
    .ok chains
  else if entry.commitVersion ≤ latest ∧ chain.entries ≠ [] then
    .error (.internal ("chain append not monotonic for key " ++ key ++ ": latest=" ++ toString latest ++
      " new=" ++ toString entry.commitVersion))
  else .ok (chains.insert key (chain.append entry))

/-- `append_chain_entry`: append one entry to a chain, above its newest one. -/
def appendChainEntryAlone (s : Store) (key : String) (entry : VersionEntry) : Except XtableError Unit × Store :=
  let chain := s.readChain key
  let latest := chain.latestCommitVersion
  if entry.commitVersion ≤ latest ∧ chain.entries ≠ [] then
    (.error (.internal ("chain append not monotonic: latest=" ++ toString latest ++ " new=" ++
      toString entry.commitVersion)), s)
  else (.ok (), { s with versionChains := s.versionChains.insert key (chain.append entry) })

/-- The order of a batch: by key, then by commit version. -/
def batchLe (a b : String × VersionEntry × Nat) : Prop :=
  ((compare a.1 b.1).then (compare a.2.1.commitVersion b.2.1.commitVersion)) ≠ .gt

instance : DecidableRel batchLe := fun _ _ => inferInstanceAs (Decidable (_ ≠ _))

/-- Append entries `(key, entry, snapshot_version)` to their chains, all or none. -/
def appendChainEntriesBulk (s : Store) (entries : List (String × VersionEntry × Nat)) :
    Except XtableError Unit × Store :=
  match (entries.insertionSort batchLe).foldlM appendChainEntry s.versionChains with
  | .ok chains => (.ok (), { s with versionChains := chains })
  | .error x => (.error x, s)

def putVersionsBulk (s : Store) (updates : List (String × VersionRecord)) : Store :=
  { s with versions := updates.foldl (fun t u => t.insert u.1 u.2) s.versions }

/-! ## Snapshot pins and garbage collection -/

def captureAndRegisterSnapshot (s : Store) : Nat × Store :=
  (s.globalVersion,
    { s with activeSnapshots :=
        s.activeSnapshots.insert s.globalVersion ((s.activeSnapshots[s.globalVersion]?).getD 0 + 1) })

def unregisterSnapshot (s : Store) (snapshot : Nat) : Store :=
  let cur := (s.activeSnapshots[snapshot]?).getD 0
  if cur ≤ 1 then { s with activeSnapshots := s.activeSnapshots.erase snapshot }
  else { s with activeSnapshots := s.activeSnapshots.insert snapshot (cur - 1) }

/-- The least registered snapshot, `⊤` when none is. -/
def minActiveSnapshot (s : Store) : WithTop Nat :=
  s.activeSnapshots.toList.foldl (fun m x => min m (x.1 : WithTop Nat)) ⊤

/-- The versions of one record in the historical table, ascending. -/
def recordHistory (s : Store) (rk : RecordKey) : List Nat :=
  (s.recordVersions.toList.filter fun x => x.1.1 = rk).map fun x => x.1.2

/-- How many of a record's versions fall to garbage collection. -/
def historyKeepFrom (versions : List Nat) (minSnapshot : WithTop Nat) : Nat :=
  if minSnapshot = ⊤ then versions.length - 1
  else (rposition (fun v : Nat => decide ((v : WithTop Nat) ≤ minSnapshot)) versions).getD 0

/-- `gc_chains_inner`: prune every chain and every record history below the oldest snapshot that is
registered, or below `requestedMin` if that is older (`⊤` is `u64::MAX`). Answers the number of chains
visited and of entries removed. -/
def gcChainsInner (s : Store) (requestedMin : Option (WithTop Nat)) : (Nat × Nat) × Store :=
  let activeMin := s.minActiveSnapshot
  let minSnapshot := match requestedMin with
    | some requested => min requested activeMin
    | none => activeMin
  ((s.versionChains.toList.length,
      (s.versionChains.toList.map fun x => (x.2.pruneBelow minSnapshot).2).sum),
    { s with
      versionChains := s.versionChains.map fun _ c => (c.pruneBelow minSnapshot).1
      recordVersions := s.recordVersions.filter fun k _ =>
        !((s.recordHistory k.1).take (historyKeepFrom (s.recordHistory k.1) minSnapshot)).contains k.2 })

def gcChainsAtActiveSnapshot (s : Store) : (Nat × Nat) × Store := s.gcChainsInner none

/-! ## Structured-data indexes -/

/-- The index entry of a record; the bare entry is the front part of a stored row. -/
def getRecordIndex (s : Store) (rk : RecordKey) : Option RecordIndexEntry :=
  s.recordIndex[rk]?.map (·.entry)

/-- Store a bare entry as the latest row; it reads back like a row with an empty body. -/
def putRecordIndex (s : Store) (rk : RecordKey) (entry : RecordIndexEntry) : Store :=
  { s with recordIndex := s.recordIndex.insert rk ⟨entry, ""⟩ }

/-- The latest rows of a table, by record id. -/
def iterRecordIndex (s : Store) (space table : String) : List (String × RecordIndexEntry) :=
  (s.recordIndex.toList.filter fun x => x.1.1 = space && x.1.2.1 = table).map fun x => (x.1.2.2, x.2.entry)

/-- Store one version of a record, and make it the latest row unless a newer one is there. -/
def putRecordIndexWithBody (s : Store) (rk : RecordKey) (entry : RecordIndexEntry) (bodyJson : String)
    (body : Bytes) : Store :=
  let replaceLatest := match s.recordIndex[rk]? with
    | none => true
    | some current => decide (current.entry.commitVersion ≤ entry.commitVersion)
  { s with
    recordIndex := if replaceLatest then s.recordIndex.insert rk ⟨entry, bodyJson⟩ else s.recordIndex
    recordVersions := s.recordVersions.insert (rk, entry.commitVersion) ⟨entry, body⟩ }

/-- Store one historical version of a record; the latest row stays as it is. -/
def putRecordVersion (s : Store) (rk : RecordKey) (entry : RecordIndexEntry) (body : Bytes) : Store :=
  { s with recordVersions := s.recordVersions.insert (rk, entry.commitVersion) ⟨entry, body⟩ }

def putRecordVersionsBulk (s : Store) (updates : List (RecordKey × RecordIndexEntry × Bytes)) : Store :=
  updates.foldl (fun s u => s.putRecordVersion u.1 u.2.1 u.2.2) s

/-- One row of the scan for the newest version visible at a snapshot. -/
def betterVersion (rk : RecordKey) (snapshot : Nat) (best : Option (RecordIndexEntry × Bytes))
    (row : (RecordKey × Nat) × StoredRecordVersion) : Option (RecordIndexEntry × Bytes) :=
  if row.1.1 ≠ rk ∨ row.1.2 > snapshot then best
  else match best with
    | none => some (row.2.entry, row.2.body)
    | some (e, _) =>
      if e.commitVersion < row.2.entry.commitVersion then some (row.2.entry, row.2.body) else best

def getRecordVersionAtSnapshot (s : Store) (rk : RecordKey) (snapshot : Nat) :
    Option (RecordIndexEntry × Bytes) :=
  s.recordVersions.toList.foldl (betterVersion rk snapshot) none

/-- Point one exact version of a record at a chunk; the latest row only follows when it is that
version. -/
def updateRecordIndexChunkIdForVersion (s : Store) (rk : RecordKey) (commitVersion : Nat)
    (newChunkId : String) : Bool × Store :=
  let latest := match s.recordIndex[rk]? with
    | some stored =>
      if stored.entry.commitVersion = commitVersion then
        (true, s.recordIndex.insert rk { stored with entry := { stored.entry with chunkId := newChunkId } })
      else (false, s.recordIndex)
    | none => (false, s.recordIndex)
  let versions := match s.recordVersions[(rk, commitVersion)]? with
    | some stored =>
      (true, s.recordVersions.insert (rk, commitVersion)
        { stored with entry := { stored.entry with chunkId := newChunkId } })
    | none => (false, s.recordVersions)
  (latest.1 || versions.1, { s with recordIndex := latest.2, recordVersions := versions.2 })

def putSchemaIndex (s : Store) (space name : String) (entry : SchemaIndexEntry) : Store :=
  { s with schemaIndex := s.schemaIndex.insert (space, name) entry }

def getSchemaIndex (s : Store) (space name : String) : Option SchemaIndexEntry :=
  s.schemaIndex[(space, name)]?

/-- The schema names of a space, with their index rows. -/
def iterSchemaIndex (s : Store) (space : String) : List (String × SchemaIndexEntry) :=
  (s.schemaIndex.toList.filter fun x => x.1.1 = space).map fun x => (x.1.2, x.2)

def putChunkIndex (s : Store) (chunkId : String) (entry : ChunkIndexEntry) : Store :=
  { s with chunkIndex := s.chunkIndex.insert chunkId entry }

def getChunkIndex (s : Store) (chunkId : String) : Option ChunkIndexEntry := s.chunkIndex[chunkId]?

end Store

end Xtable
