import Xtable.Core

/-! The SI lock manager: SIRead and SIWrite locks of each transaction, and the rw-antidependency edges found when
    they are registered. It lives in memory; a lost one starts empty. -/

namespace Xtable

structure SIReadLock where
  key : String
  versionObserved : Nat
  etagObserved : String
  deriving DecidableEq, Repr

structure SIWriteLock where
  key : String
  versionToWrite : Nat
  deriving DecidableEq, Repr

inductive PeerAction where
  | read
  | wrote
  deriving DecidableEq, Repr

structure SIEdge where
  peer : String
  key : String
  peerAction : PeerAction
  version : Nat
  deriving DecidableEq, Repr

inductive SiTxnPhase where
  | active
  | committed
  | aborted
  deriving DecidableEq, Repr

structure SiTxnLocks where
  reads : List SIReadLock := []
  writes : List SIWriteLock := []
  inEdges : List SIEdge := []
  outEdges : List SIEdge := []
  snapshotVersion : Nat := 0
  status : SiTxnPhase := .active
  deriving DecidableEq, Repr

/-- A writer of a key, active or committed. -/
structure WriterView where
  txnId : String
  committedVersion : Nat
  isRecentlyCommitted : Bool
  deriving DecidableEq, Repr

structure RecentlyCommittedTxn where
  txnId : String
  keys : List String
  commitVersion : Nat
  deriving DecidableEq, Repr

structure SiLockManager where
  byTxn : Table String SiTxnLocks := ∅
  readersOf : Table String (List String) := ∅
  writersOf : Table String (List WriterView) := ∅
  recent : List RecentlyCommittedTxn := []
  recentFloorVersion : Nat := 0

namespace SiLockManager

def beginTxn (m : SiLockManager) (t : String) (snapshotVersion : Nat) : Except XtableError Unit × SiLockManager :=
  if (m.byTxn[t]?).isSome then
    (.error (.storage ("SI lock manager: txn already exists: " ++ t)), m)
  else
    (.ok (), { m with byTxn := m.byTxn.insert t { snapshotVersion := snapshotVersion } })

/-- The in-edges a read gets: from every committed writer of the key newer than what was observed. -/
def readEdges (m : SiLockManager) (key : String) (versionObserved : Nat) : List SIEdge :=
  (((m.writersOf[key]?).getD []).filter fun w =>
    w.isRecentlyCommitted && versionObserved < w.committedVersion).map fun w =>
      ⟨w.txnId, key, .wrote, w.committedVersion⟩

def registerRead (m : SiLockManager) (t key : String) (versionObserved : Nat) (etag : String) : SiLockManager :=
  { m with
    byTxn := match m.byTxn[t]? with
      | some entry => m.byTxn.insert t
          { entry with
            reads := entry.reads ++ [⟨key, versionObserved, etag⟩]
            inEdges := entry.inEdges ++ m.readEdges key versionObserved }
      | none => m.byTxn
    readersOf := m.readersOf.insert key ((m.readersOf[key]?).getD [] ++ [t]) }

/-- Add an in-edge to one transaction, if it is known. -/
def addInEdge (byTxn : Table String SiTxnLocks) (reader : String) (e : SIEdge) : Table String SiTxnLocks :=
  match byTxn[reader]? with
  | some locks => byTxn.insert reader { locks with inEdges := locks.inEdges ++ [e] }
  | none => byTxn

def registerWrite (m : SiLockManager) (t key : String) (versionToWrite : Nat) : SiLockManager :=
  let readers := ((m.readersOf[key]?).getD []).filter fun reader => reader ≠ t
  let own := match m.byTxn[t]? with
    | some entry => m.byTxn.insert t
        { entry with
          writes := entry.writes ++ [⟨key, versionToWrite⟩]
          outEdges := entry.outEdges ++ readers.map fun reader => ⟨reader, key, .read, versionToWrite⟩ }
    | none => m.byTxn
  { m with
    byTxn := readers.foldl (fun b reader => addInEdge b reader ⟨t, key, .wrote, versionToWrite⟩) own
    writersOf := m.writersOf.insert key ((m.writersOf[key]?).getD [] ++ [⟨t, 0, false⟩]) }

/-- A peer with both an in-edge and an out-edge on this transaction. -/
def findDangerousStructure (m : SiLockManager) (t : String) : Option String :=
  match m.byTxn[t]? with
  | none => none
  | some me =>
    let inPeers := (me.inEdges.filter fun e => e.peer ≠ t).map (·.peer)
    (me.outEdges.find? fun e => inPeers.contains e.peer).map (·.peer)

/-- Mirror an out-edge of a committing transaction onto the peer, unless it has one already. -/
def mirrorEdge (t : String) (commitVersion : Nat) (byTxn : Table String SiTxnLocks) (edge : String × String) :
    Table String SiTxnLocks :=
  match byTxn[edge.1]? with
  | some peer =>
    if peer.inEdges.any fun e => e.peer = t && e.key = edge.2 then byTxn
    else byTxn.insert edge.1
      { peer with inEdges := peer.inEdges ++ [⟨t, edge.2, .wrote, commitVersion⟩] }
  | none => byTxn

/-- Stamp the views of one writer of a key with its commit version. -/
def stampWriter (t : String) (commitVersion : Nat) (writersOf : Table String (List WriterView)) (key : String) :
    Table String (List WriterView) :=
  match writersOf[key]? with
  | some list => writersOf.insert key <| list.map fun w =>
      if w.txnId = t then { w with committedVersion := commitVersion, isRecentlyCommitted := true } else w
  | none => writersOf

def markCommitted (m : SiLockManager) (t : String) (commitVersion : Nat) : SiLockManager :=
  let entry := (m.byTxn[t]?).getD {}
  let outEdges := (entry.outEdges.filter fun e => e.peerAction = .read).map fun e => (e.peer, e.key)
  let myWrites := entry.writes.map (·.key)
  let marked := match m.byTxn[t]? with
    | some entry => m.byTxn.insert t { entry with status := .committed }
    | none => m.byTxn
  { m with
    byTxn := outEdges.foldl (mirrorEdge t commitVersion) marked
    writersOf := myWrites.foldl (stampWriter t commitVersion) m.writersOf
    recent := m.recent ++ [⟨t, myWrites, commitVersion⟩]
    recentFloorVersion := max m.recentFloorVersion commitVersion }

/-- Forget a transaction, and every edge of its peers that names it. -/
def markAborted (m : SiLockManager) (t : String) : SiLockManager :=
  { m with
    byTxn := (m.byTxn.erase t).map fun _ locks =>
      { locks with
        inEdges := locks.inEdges.filter fun e => e.peer ≠ t
        outEdges := locks.outEdges.filter fun e => e.peer ≠ t }
    readersOf := m.readersOf.map fun _ list => list.filter fun r => r ≠ t
    writersOf := m.writersOf.map fun _ list => list.filter fun w => w.txnId ≠ t }

end SiLockManager

end Xtable
