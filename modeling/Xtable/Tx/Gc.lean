import Xtable.Tx.Coordinator

/-! The stale-transaction sweep and the chain collection of one GC pass. The sweep works on the store alone; it
    knows nothing of the coordinator's lock manager. -/

namespace Xtable.Gc

open Prog (fail forEach)
open Server

/-- Abort one stale transaction, unless a commit or another sweeper has claimed it first. -/
def abortTxnLocal (t : String) : Server Bool := do
  match ← getTxnState t with
  | none => return false
  | some state =>
    if state.status = .active then do
      if ← compareAndSetTxnStatus t .active .aborted then do
        let ws ← iterWriteSet t
        forEach ws fun x => Coordinator.dropStaged t x.2
        let _ ← appendWal (.aborted t "GC: stale txn timeout")
        unregisterSnapshot state.snapshotVersion
        return true
      else return false
    else return false

def abortEach (aborted : Nat) : List String → Server Nat
  | [] => return aborted
  | t :: rest => do
    let done ← abortTxnLocal t
    abortEach (if done then aborted + 1 else aborted) rest

/-- `now_ms - timeout_secs * 1000` in `i64`, which wraps in a release build. -/
def cutoff (nowMs timeoutSecs : Int) : Int := (nowMs - timeoutSecs * 1000).bmod (2 ^ 64)

/-- Abort the active transactions whose last heartbeat is older than the timeout. -/
def sweepStaleTxns (nowMs timeoutSecs : Int) : Server Nat := do
  let stale ← scanStale (cutoff nowMs timeoutSecs)
  abortEach 0 stale

/-- One pass: stale transactions, then version chains. -/
def sweepAll (nowMs timeoutSecs : Int) : Server (Nat × Nat × Nat) := do
  let aborted ← sweepStaleTxns nowMs timeoutSecs
  let pruned ← gcChainsAtActiveSnapshot
  return (aborted, pruned.1, pruned.2)

end Xtable.Gc
