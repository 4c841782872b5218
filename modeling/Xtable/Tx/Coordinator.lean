import Xtable.World

/-! The transaction coordinator: its calls as programs over the store's transactions, in the order in which the
    source issues them. Identifiers and clock readings are arguments. -/

namespace Xtable

def spillHandle (env : Env) (t key : String) : String := t ++ "-" ++ env.uuidLike key

def spillPath (env : Env) (handle : String) : String := env.spillDir ++ "/" ++ handle

/-- Bodies above this size are spilled to a file. -/
def spillThreshold : Nat := 256 * 1024

/-- The memtable key of a structured object key: `_xtable/{space}/_schema/{rest}` or
`_xtable/{space}/{table}/{record_id}.json`. -/
def parseRecordKey (backendKey : String) : Option RecordKey := do
  let stripped ← backendKey.toList.dropPrefix? "_xtable/".toList
  let (space, afterSpace) ← splitOnce '/' stripped
  let (second, rest) ← splitOnce '/' afterSpace
  if String.ofList second = "_schema" then
    some (String.ofList space, "_schema", String.ofList rest)
  else
    let recordId ← rest.dropSuffix? ".json".toList
    some (String.ofList space, String.ofList second, String.ofList recordId)

/-- The memtable key of any object key; other keys stay apart under an empty space and table. -/
def memKey (key : String) : RecordKey := (parseRecordKey key).getD ("", "", key)

/-- The commit version a committed row reports. -/
def TxnStateRecord.lastVersion (rec : TxnStateRecord) : Nat :=
  ((rec.allocVersions.map (·.2)).max?).getD rec.snapshotVersion

/-- The row that `stage` writes back, for a key it has not seen in the row it read. -/
def TxnStateRecord.addWriteKey (txn : TxnStateRecord) (key : String) : TxnStateRecord :=
  { txn with writeKeys := txn.writeKeys ++ [key] }

def TxnStateRecord.addReadKey (txn : TxnStateRecord) (key : String) : TxnStateRecord :=
  { txn with readKeys := txn.readKeys ++ [key] }

namespace Coordinator

open Prog (fail forEach)
open Server

def requireActive (t : String) : Server TxnStateRecord := do
  match ← getTxnState t with
  | some rec =>
    if rec.status = .active then return rec
    else fail (TxnError.invalidState ("txn not active: " ++ rec.status.debug)).into
  | none => fail (TxnError.unknownTxn t).into

/-! ## Begin, stage, read, heartbeat -/

def begin (t : String) (idempotencyKey : Option String) (nowMs : Int) : Server String := do
  let snapshotVersion ← captureAndRegisterSnapshot
  putTxnState t (.newActive snapshotVersion idempotencyKey nowMs)
  match ← lockBeginTxn t snapshotVersion with
  | .error err => do
    unregisterSnapshot snapshotVersion
    deleteTxnState t
    fail err
  | .ok _ => do
    let _ ← appendWal (.begin t snapshotVersion idempotencyKey)
    return t

/-- Spill a large body to a file; its handle. -/
def spill (env : Env) (t key : String) (body : Bytes) : Server (Option String) :=
  if spillThreshold < body.length then do
    writeFile (spillPath env (spillHandle env t key)) body
    putBlob (spillHandle env t key) ⟨spillPath env (spillHandle env t key), body.length⟩
    return some (spillHandle env t key)
  else return none

/-- The write-set row of a staged write. -/
def writeEntry (key : String) (body : Bytes) (bodyHandle contentType : Option String)
    (userMeta : List (String × String)) (deleted : Bool) : WriteSetEntry where
  backendKey := key
  bodyHandle := bodyHandle
  inlineBody := if bodyHandle.isNone then some body else none
  size := body.length
  contentType := contentType
  userMeta := userMeta
  deleted := deleted

def stage (env : Env) (t key : String) (body : Bytes) (contentType : Option String)
    (userMeta : List (String × String)) (deleted : Bool) : Server Unit := do
  let txn ← requireActive t
  let bodyHandle ← spill env t key body
  let _ ← appendWal (.stage t key bodyHandle)
  putWriteEntry t key (writeEntry key body bodyHandle contentType userMeta deleted)
  if key ∈ txn.writeKeys then pure () else putTxnState t (txn.addWriteKey key)
  registerWrite t key (txn.snapshotVersion + 1)

def read (t key : String) (observedVersion : Nat) (observedEtag : String) : Server Unit := do
  let txn ← requireActive t
  registerRead t key observedVersion observedEtag
  if key ∈ txn.readKeys then pure () else putTxnState t (txn.addReadKey key)

def heartbeat (t : String) (nowMs : Int) : Server Unit := do
  let txn ← requireActive t
  putTxnState t { txn with lastHeartbeatMs := nowMs }

/-! ## Commit -/

/-- What `commit` answers on a row that is not `Active`: the version of an earlier commit, or why
the transaction cannot be committed. -/
def replay (rec : TxnStateRecord) : Server Nat :=
  match rec.status with
  | .committed => return rec.lastVersion
  | .aborted => fail (TxnError.aborted "txn already aborted").into
  | status => fail (TxnError.invalidState ("txn in " ++ status.debug ++ " state")).into

/-- The front part of `commit_inner`: `none` when this call has moved the row to `Committing`, the
commit version when the transaction had been committed before. -/
def claim (t : String) : Server (Option Nat) := do
  match ← getTxnState t with
  | none => fail (TxnError.unknownTxn t).into
  | some rec =>
    if rec.status = .active then do
      if ← compareAndSetTxnStatus t .active .committing then return none
      else
        match ← getTxnState t with
        | none => fail (TxnError.unknownTxn t).into
        | some state => do return some (← replay state)
    else do return some (← replay rec)

/-- The body of a staged write, read back from its spill file if it has one. -/
def stagedBody (we : WriteSetEntry) : Server Bytes :=
  match we.inlineBody, we.bodyHandle with
  | some body, _ => return body
  | none, none => return []
  | none, some handle => do
    match ← getBlob handle with
    | none => fail (.storage ("staged blob missing: " ++ handle))
    | some blob =>
      match ← readFile blob.path with
      | none => fail (.io "No such file or directory (os error 2)")
      | some body => return body

def materialize (bodies : Table String Bytes) : WriteSet → Server (Table String Bytes)
  | [] => return bodies
  | (key, we) :: rest => do
    let body ← stagedBody we
    materialize (bodies.insert key body) rest

/-- Log and store that a commit gives up. -/
def storeAborted (t : String) (txn : TxnStateRecord) (reason : String) : Server Unit := do
  let _ ← appendWal (.aborted t reason)
  putTxnState t { txn with status := .aborted }

/-- Refuse the commit if another transaction has written one of the keys after our snapshot. -/
def checkSnapshot (t : String) (txn : TxnStateRecord) : List String → Server Unit
  | [] => return ()
  | key :: rest => do
    let chain ← readChain key
    let latest := VersionChain.latestCommitVersion chain
    if VersionChain.entries chain ≠ [] ∧ latest > txn.snapshotVersion then do
      storeAborted t txn ("snapshot conflict on " ++ key ++ ": our snapshot " ++
        toString txn.snapshotVersion ++ ", chain latest " ++ toString latest)
      unregisterSnapshot txn.snapshotVersion
      fail (.conflict (Store.snapshotConflict key txn.snapshotVersion latest))
    else checkSnapshot t txn rest

def isDeleted (ws : WriteSet) (key : String) : Bool :=
  ((ws.find? fun x => x.1 = key).map (·.2.deleted)).getD false

def stagedSize (ws : WriteSet) (key : String) : Nat :=
  ((ws.find? fun x => x.1 = key).map (·.2.size)).getD 0

/-- The chain entry of one committed key. -/
def chainEntry (t : String) (ws : WriteSet) (key : String) (version : Nat) : VersionEntry :=
  if isDeleted ws key then .tombstone version key t else .new version "" key t (stagedSize ws key)

@[simp] theorem chainEntry_txnId (t : String) (ws : WriteSet) (key : String) (version : Nat) :
    (chainEntry t ws key version).txnId = t := by
  unfold chainEntry
  split <;> rfl

@[simp] theorem chainEntry_commitVersion (t : String) (ws : WriteSet) (key : String)
    (version : Nat) : (chainEntry t ws key version).commitVersion = version := by
  unfold chainEntry
  split <;> rfl

def versionRecord (t : String) (ws : WriteSet) (key : String) (version : Nat) :
    VersionRecord where
  latestVersion := version
  latestBackendKey := key
  lastWriterTxnId := t
  tombstone := isDeleted ws key
  size := stagedSize ws key

/-- The memtable entry of one staged write, visible at the commit version from the start. -/
def memEntry (t : String) (commitVersion : Nat) (bodies : Table String Bytes) (key : String)
    (we : WriteSetEntry) : MemEntry where
  key := memKey key
  value := (bodies[key]?).getD []
  commitVersion := (commitVersion : WithTop Nat)
  txnId := t
  deleted := we.deleted
  contentType := we.contentType
  userMeta := we.userMeta
  schemaVersion := 0
  walSeq := commitVersion
  sizeBytes := we.size

def publishWrites (t : String) (commitVersion : Nat) (bodies : Table String Bytes) (aged : String → Bool)
    (ws : WriteSet) : Server Unit :=
  forEach ws fun x => do
    memPutInvisible (memEntry t commitVersion bodies x.1 x.2) (aged x.1)
    memPublish (memKey x.1) commitVersion

/-- Drop the spill file of a staged write, its row, and the write-set row. -/
def dropSpilled (t : String) (we : WriteSetEntry) : Server Unit :=
  match we.bodyHandle with
  | none => return ()
  | some handle => do
    let rec ← getBlob handle
    deleteBlob handle
    match rec with
    | some blob => removeFile (BlobRecord.path blob)
    | none => pure ()
    deleteWriteEntry t we.backendKey

/-- What a post-commit hook is told about one key. -/
structure CommitWrite where
  key : String
  commitVersion : Nat
  deleted : Bool
  size : Nat
  deriving DecidableEq, Repr

structure CommitEvent where
  txnId : String
  commitVersion : Nat
  writes : List CommitWrite

def commitWrite (item : String × VersionEntry × Nat) : CommitWrite :=
  ⟨item.1, item.2.1.commitVersion, item.2.1.deleted, item.2.1.size⟩

/-- From the allocated versions on: log, append to the chains, mark committed, publish. -/
def publish (hook : CommitEvent → Server Unit) (aged : String → Bool) (t : String)
    (txn : TxnStateRecord) (ws : WriteSet) (bodies : Table String Bytes)
    (sortedKeys : List String) (commitVersion : Nat) : Server Nat := do
  let allocVersions := sortedKeys.map fun key => (key, commitVersion)
  let _ ← appendWal (.committing t sortedKeys)
  let txn := { txn with allocVersions := allocVersions, uploadedKeys := [] }
  putTxnState t txn
  let entries := allocVersions.map fun x => (x.1, chainEntry t ws x.1 x.2, txn.snapshotVersion)
  match ← appendChainEntriesBulk entries with
  | .error err => fail err
  | .ok _ => do
    putVersionsBulk (allocVersions.map fun x => (x.1, versionRecord t ws x.1 x.2))
    let _ ← appendWal (.committed t commitVersion)
    let _ ← appendWal (.commitResult t commitVersion true)
    putTxnState t { txn with status := .committed }
    publishWrites t commitVersion bodies aged ws
    markCommitted t commitVersion
    hook ⟨t, commitVersion, entries.map commitWrite⟩
    unregisterSnapshot txn.snapshotVersion
    forEach ws fun x => dropSpilled t x.2
    return commitVersion

/-- The part of `commit_inner` after this call has moved the row to `Committing`. -/
def commitOwned (hook : CommitEvent → Server Unit) (aged : String → Bool) (t : String) : Server Nat := do
  match ← getTxnState t with
  | none => fail (TxnError.unknownTxn t).into
  | some txn => do
    let ws ← iterWriteSet t
    let bodies ← materialize ∅ ws
    match ← findDangerousStructure t with
    | some peer => do
      storeAborted t txn ("Cahill cycle with " ++ peer)
      markAborted t
      unregisterSnapshot txn.snapshotVersion
      fail (TxnError.conflict ("SSI cycle with " ++ peer)).into
    | none => do
      let sortedKeys := txn.writeKeys.insertionSort (· ≤ ·)
      let commitVersion ← if sortedKeys = [] then pure txn.snapshotVersion else nextGlobalVersion
      checkSnapshot t txn sortedKeys
      publish hook aged t txn ws bodies sortedKeys commitVersion

/-- Whether each allocated version of a transaction is in its chain. -/
def allPublished (t : String) : List (String × Nat) → Server Bool
  | [] => return true
  | (key, version) :: rest => do
    let chain ← readChain key
    if chain.entries.any fun e => e.txnId = t && e.commitVersion = version then allPublished t rest
    else return false

/-- A failed commit must not stay `Committing`: it is committed if its chain append has landed, and
aborted otherwise. -/
def reconcileFailedCommit (t : String) (cause : XtableError) : Server Unit := do
  match ← getTxnState t with
  | none => return ()
  | some txn =>
    if txn.status = .committing then do
      let published ← if txn.allocVersions = [] then pure false else allPublished t txn.allocVersions
      if published then do
        putTxnState t { txn with status := .committed }
        markCommitted t txn.lastVersion
        unregisterSnapshot txn.snapshotVersion
      else do
        storeAborted t txn ("commit failed before publish: " ++ cause.display)
        markAborted t
        unregisterSnapshot txn.snapshotVersion
    else return ()

def commit (hook : CommitEvent → Server Unit) (aged : String → Bool) (t : String) : Server Nat := do
  match ← claim t with
  | some version => return version
  | none =>
    match ← (commitOwned hook aged t).attempt with
    | .ok version => return version
    | .error err => do
      reconcileFailedCommit t err
      fail err

/-! ## Abort -/

/-- Drop a staged write of a transaction that does not commit. -/
def dropStaged (t : String) (we : WriteSetEntry) : Server Unit := do
  match we.bodyHandle with
  | some handle => do
    match ← getBlob handle with
    | some blob => removeFile blob.path
    | none => pure ()
    deleteBlob handle
  | none => pure ()
  deleteWriteEntry t we.backendKey

def abort (t : String) : Server Unit := do
  match ← getTxnState t with
  | none => fail (TxnError.unknownTxn t).into
  | some txn =>
    match txn.status with
    | .committed => fail (TxnError.invalidState "txn already committed").into
    | .aborted => return ()
    | .committing => fail (TxnError.invalidState ("txn not abortable: " ++ txn.status.debug)).into
    | .active => do
      if ← compareAndSetTxnStatus t .active .aborted then do
        let ws ← iterWriteSet t
        forEach ws fun x => dropStaged t x.2
        let _ ← appendWal (.aborted t "explicit abort")
        unregisterSnapshot txn.snapshotVersion
        markAborted t
      else fail (TxnError.invalidState "txn state changed while aborting").into

/-- `TxnCoordinator::status`. -/
def status (t : String) : Server TxnStatus := do
  match ← getTxnState t with
  | some rec => return rec.status
  | none => fail (TxnError.unknownTxn t).into

end Coordinator

end Xtable
