import Xtable.Tx.FlushLoop
import Xtable.Tx.Rebuild

/-! A server over its life. Between two starts the flush loop runs beside the requests; a start on a lost store
    rebuilds it from the bucket. A put takes the active memtable out of its lock and inserts the entry only then:
    the memtable can rotate and be flushed in between. -/

namespace Xtable

/-- The actions by which a flush files a chunk. -/
def Act.files : Act → Bool
  | .putObject .. | .putChunkIndex .. => true
  | _ => false

/-- The events of the flush loop itself. -/
def DaemonEvent.ofLoop : DaemonEvent → Bool
  | .run _ | .restart .. => false
  | _ => true

/-- A memtable in the middle of a put: the WAL sequence of the entry counts, its version does not yet. -/
def MemTable.counting (mt : MemTable) (entry : MemEntry) : MemTable :=
  { mt with
    bytesEstimate := mt.bytesEstimate + max entry.sizeBytes 64
    earliestSeq := min mt.earliestSeq (entry.walSeq : WithTop Nat)
    latestSeq := max mt.latestSeq entry.walSeq }

inductive SiteEvent where
  /-- An action of a request, of recovery or of garbage collection. -/
  | act (a : Act)
  | loop (ev : DaemonEvent)
  /-- `flush_one` reads the ranges of a memtable before a put that has taken it before the rotation, or in the middle of
  the put, and meets the entry in the map. -/
  | flushLate (chunkId : String) (nowMs : Int64) (entries : List MemEntry) (late : MemEntry) (counted : Bool)
  | crash
  /-- The store is lost together with the process. -/
  | loseStore
  /-- A rebuild at a start, up to one of its transactions or to its end. -/
  | rebuild (listed : List ListedObject) (order : List (RecordKey × Rebuild.PerKey) → List (RecordKey × Rebuild.PerKey)) (n : Nat)

namespace Daemon

/-- A process that starts over a state. -/
def started (w : World) : Daemon := { pool := Pool.idle w.crash }

def flushLate (c : Codecs) (chunkId : String) (nowMs : Int64) (entries : List MemEntry) (late : MemEntry) (counted : Bool)
    (d : Daemon) : Option Daemon :=
  match d.flushing, d.taken with
  | none, mt :: rest =>
    if entries.Perm (mt.putInvisible late).entries ∧ d.pool.state.freshChunkId chunkId then
      let seen := if counted then mt.counting late else mt
      some { d with
        taken := rest
        flushing := some (mt.putInvisible late, Flush.flushOne c chunkId nowMs entries seen) }
    else none
  | _, _ => none

/-- The store after `n` transactions of a rebuild from the bucket. -/
def rebuilding (c : Codecs) (listed : List ListedObject)
    (order : List (RecordKey × Rebuild.PerKey) → List (RecordKey × Rebuild.PerKey)) (n : Nat) (w : World) : Store :=
  ((rebuild c { objects := w.bucket } (.ok listed) order).advance RebuildAct.exec n w.store).2

end Daemon

def SiteEvent.step (env : Env) (c : Codecs) : SiteEvent → Daemon → Option Daemon
  | .act a, d => if a.files then none else some (d.setState (d.pool.state.exec a).2)
  | .loop ev, d => if ev.ofLoop then d.step env c ev else none
  | .flushLate chunkId nowMs entries late counted, d => d.flushLate c chunkId nowMs entries late counted
  | .crash, d => some (.started d.pool.state)
  | .loseStore, d => some (.started { d.pool.state with store := {} })
  | .rebuild listed order n, d =>
    some (.started { d.pool.state with store := Daemon.rebuilding c listed order n d.pool.state })

end Xtable
