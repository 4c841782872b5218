import Xtable.Tx.Coordinator

/-! `recover` decides each unfinished transaction from its last WAL status, its row, and the newest version in the
    chains of its keys. -/

namespace Xtable.Recovery

open Prog (fail forEach)
open Server

/-- What the WAL says of each transaction: its last status, and the keys of its last `Committing`
record. -/
structure Replay where
  lastStatus : Table String TxnStatus := ∅
  lastUploaded : Table String (List String) := ∅

def Replay.note (r : Replay) : WalRecord → Replay
  | .begin t _ _ | .stage t _ _ =>
    if (r.lastStatus[t]?).isSome then r else { r with lastStatus := r.lastStatus.insert t .active }
  | .committing t uploadKeys =>
    { lastStatus := r.lastStatus.insert t .committing, lastUploaded := r.lastUploaded.insert t uploadKeys }
  | .committed t _ | .commitResult t _ _ => { r with lastStatus := r.lastStatus.insert t .committed }
  | .aborted t _ => { r with lastStatus := r.lastStatus.insert t .aborted }
  | .memtableFlushed _ _ _ => r

def replay (log : List (Nat × WalRecord)) : Replay := log.foldl (fun r x => r.note x.2) {}

structure RecoveryReport where
  alreadyCommitted : Nat := 0
  chainWonWalRace : Nat := 0
  partialUploadsAborted : Nat := 0
  deriving DecidableEq, Repr

def abortTxnNoUploads (nowMs : Int) (t : String) : Server Unit := do
  let ws ← iterWriteSet t
  forEach ws fun x => Coordinator.dropStaged t x.2
  let _ ← appendWal (.aborted t "crash recovery")
  match ← getTxnState t with
  | some state => unregisterSnapshot state.snapshotVersion
  | none => pure ()
  match ← getTxnState t with
  | some rec => putTxnState t { rec with status := .aborted, lastHeartbeatMs := nowMs }
  | none => putTxnState t { TxnStateRecord.newActive 0 none nowMs with status := .aborted }

/-- Compare the newest version of each uploaded key's chain with the allocated one: how many agree,
and the keys where it does not. -/
def chainState (uploaded : List String) (published : Nat) (pendingUploads : List String) :
    List (String × Nat) → Server (Nat × List String)
  | [] => return (published, pendingUploads)
  | (key, version) :: rest =>
    if key ∈ uploaded then do
      let chain ← readChain key
      if chain.latestCommitVersion = version then chainState uploaded (published + 1) pendingUploads rest
      else chainState uploaded published (pendingUploads ++ [key]) rest
    else chainState uploaded published pendingUploads rest

/-- Decide a transaction that is not terminal, by its last WAL status and the chains. -/
def recoverUnfinished (nowMs : Int) (r : Replay) (report : RecoveryReport) (t : String) (rec : TxnStateRecord) :
    Server RecoveryReport :=
  match r.lastStatus[t]? with
  | some .active => do
    abortTxnNoUploads nowMs t
    return report
  | some .committing => do
    let state ← chainState ((r.lastUploaded[t]?).getD []) 0 [] rec.allocVersions
    if state.2 ≠ [] then do
      abortTxnNoUploads nowMs t
      return { report with partialUploadsAborted := report.partialUploadsAborted + 1 }
    else if 0 < state.1 then do
      let _ ← appendWal (.committed t rec.lastVersion)
      let _ ← appendWal (.commitResult t rec.lastVersion true)
      putTxnState t { rec with status := .committed }
      return { report with chainWonWalRace := report.chainWonWalRace + 1 }
    else do
      abortTxnNoUploads nowMs t
      return report
  -- a terminal WAL record over an unfinished row is left as it is
  | _ => return report

/-- Resolve one transaction of the log. -/
def recoverTxn (nowMs : Int) (r : Replay) (report : RecoveryReport) (t : String) : Server RecoveryReport := do
  match ← getTxnState t with
  | none => return report
  | some rec =>
    if rec.status.Terminal then
      return if rec.status = .committed then { report with alreadyCommitted := report.alreadyCommitted + 1 }
        else report
    else recoverUnfinished nowMs r report t rec

def recoverEach (nowMs : Int) (r : Replay) (report : RecoveryReport) : List String → Server RecoveryReport
  | [] => return report
  | t :: rest => do
    let report ← recoverTxn nowMs r report t
    recoverEach nowMs r report rest

/-- `order` is the order in which the hash map of the last statuses happens to be iterated. -/
def recover (nowMs : Int) (order : List String → List String) : Server RecoveryReport := do
  let log ← iterWal
  let r := replay log
  recoverEach nowMs r {} (order (r.lastStatus.toList.map (·.1)))

end Xtable.Recovery
